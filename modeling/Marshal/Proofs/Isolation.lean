import Marshal.Proofs.Halting
import Marshal.Proofs.Rebuilding
import Marshal.Proofs.Rivals

/-!
# Each outcome stands by itself

The exports of a module share a planner, with all that it has settled, its table of bodies and
the path of the last fault, and all modules of a batch share the cache. None of this shows in
an outcome: the plan of an export, or its fault with the way to it, is what a new batch comes
to when it analyses this export alone (`Batch.Isolates`).

The verdict of the judgement on a call has the fault with the way to it, and calm planners
agree on verdicts. So what is left is that an outcome can be read off the verdict
(`World.Reported`), and that all calm planners make the same plan of a call
(`World.Fulfils.same`).

Others may share what they have planned all the while. Of the memory only what the module's
exports lead to has to be calm then, and the cache has to be reliable in all that they do not
lead to (`PlanState.Knows`), so that it is reliable as a whole when the module is done.
-/

namespace Marshal

open Converter Planner PlanM World

/-! ## What an export asks for -/

namespace Exported

def types : Exported → List TyId
  | .value ty => [ty]
  | .function s => (Call.signature s).types

/-- The call that is made for an export. A value whose type is a function type is planned as
a function. -/
def call (a : Arena) : Exported → Call
  | .function s => .signature s
  | .value ty =>
    match a.term? ty with
    | some (.function s) => .signature s
    | _ => .type ty

variable {a b : Arena} {e : Exported}

theorem call_has (ha : a.Sound) (hx : ∀ x ∈ e.types, a.Has x) :
    ∀ x ∈ (e.call a).types, a.Has x := by
  cases e with
  | function s => exact hx
  | value ty =>
      simp only [call]
      split
      · next s hs =>
          intro x hmem
          exact ha.has_child hs (by simpa [Term.children, Call.types] using hmem)
      · exact hx

theorem call_within (h : a.Within b) (hx : ∀ x ∈ e.types, a.Has x) : e.call b = e.call a := by
  cases e with
  | function s => rfl
  | value ty => rw [call, call, h.term?_eq (hx ty (List.mem_singleton_self ty))]

/-- A call is for what is exported, or for what it leads to. -/
theorem call_reached {w : World} : ∀ x ∈ (e.call w.arena).types, x ∈ w.Reached e.types := by
  intro x hx
  cases e with
  | function s => exact ⟨x, hx, .refl⟩
  | value ty =>
      have self : ty ∈ (value ty).types := List.mem_singleton_self ty
      simp only [call] at hx
      split at hx
      · next s hs => exact ⟨ty, self, .single (.child hs rfl hx)⟩
      · exact ⟨x, List.mem_singleton.mp hx ▸ self, .refl⟩

end Exported

/-- All types that a module exports. -/
def Module.exported (m : Module) : List TyId := m.exports.flatMap fun e => e.kind.types

/-! ## From an answer to an outcome -/

/-- The state in which the path of an earlier fault is forgotten. -/
def PlanState.forgetting (s : PlanState) : PlanState := { s with planner := s.planner.takePath.2 }

namespace Batch

/-- The outcome of an export after its call. -/
def concluded (key : Key) (ran : Except Halt Answer × PlanState) : Except Halt Outcome × PlanState :=
  match ran with
  | (.ok a, s) =>
    match Plan.make key a.finding a.convention? s.planner.fixpoints with
    | .ok plan => (.ok (accepted key plan), s)
    | .error f => (.ok (refused key f s.planner.takePath.1), s.forgetting)
  | (.error (.fault f), s) => (.ok (refused key f s.planner.takePath.1), s.forgetting)
  | (.error .outOfFuel, s) => (.error .outOfFuel, s)

variable {b : Batch} {d : Nat} {m : Module} {e : Export} {s s' : PlanState} {o : Outcome}
  {key : Key} {k : Exported} {r : Except Halt Answer} {planning : Planning}

/-- A plan of what the planner answers to the export's call. -/
theorem exportPlan_run (t : PlanState) : exportPlan (b.planning d) key k t =
    ((k.call t.shared.arena).run b.catalog b.options.planner d >>= fun a => do
      let p ← PlanM.planner
      PlanM.ofExcept (Plan.make key a.finding a.convention? p.fixpoints)) t := by
  cases k with
  | function sig => simp only [exportPlan, Exported.call, functionPlan, Call.run, bind_assoc]; rfl
  | value ty =>
      rw [exportPlan, bind_ok (arena_run t), Exported.call]
      cases t.shared.arena.term? ty with
      | none => simp only [Call.run, bind_assoc]; rfl
      | some term => cases term <;> simp only [functionPlan, Call.run, bind_assoc] <;> rfl

theorem outcomeOf_run : outcomeOf (b.planning d) m e s = concluded (m.keyOf e)
    ((e.kind.call s.shared.arena).run b.catalog b.options.planner d s.forgetting) := by
  simp only [outcomeOf, exportPlan_run, bind_run]
  rw [PlanState.forgetting]
  generalize Call.run b.catalog b.options.planner d _ _ = ran
  obtain ⟨h | a, s₁⟩ := ran
  · cases h <;> rfl
  · simp only [planner_run, PlanM.ofExcept, concluded]
    cases Plan.make (m.keyOf e) a.finding a.convention? s₁.planner.fixpoints <;> rfl

theorem concluded_ok (h : concluded key (r, s) = (.ok o, s')) :
    r ≠ .error .outOfFuel ∧ s'.forgetting = s.forgetting := by
  unfold concluded at h
  split at h
  · next heq =>
      cases heq
      split at h <;> cases h <;> exact ⟨by simp, rfl⟩
  · next heq =>
      cases heq
      cases h
      exact ⟨by simp, rfl⟩
  · cases h

/-- An outcome has a plan and no error, or no plan and one error. -/
theorem outcome_settled (h : outcomeOf planning m e s = (.ok o, s')) :
    o.declaration = m.keyOf e ∧
      (o.isOk = true ∧ o.errors = [] ∨ o.plan = none ∧ ∃ d, o.errors = [d]) := by
  unfold outcomeOf at h
  dsimp only at h
  split at h
  · next plan _ _ =>
      cases h
      refine ⟨rfl, .inl ⟨rfl, ?_⟩⟩
      unfold accepted Outcome.errors
      cases plan.rebuildsBoxes <;> simp [Diagnostic.warning, Diagnostic.isError]
  · cases h
    exact ⟨rfl, .inr ⟨rfl, _, rfl⟩⟩
  · cases h

/-! ## From outcomes to a report -/

variable {sh sh' : Shared} {reported : ModuleOutcomes}

/-- The report on a module, from the outcomes of its exports. -/
theorem reportModule_run : b.reportModule d m sh =
    match m.exports.mapM (outcomeOf (b.planning d) m) ⟨sh, .new true⟩ with
    | (.ok os, s) => (.ok ⟨m.name, os⟩, s.shared)
    | (.error h, s) => (.error h, s.shared) := by
  simp only [reportModule, withPlanner, run_bind]
  rcases m.exports.mapM (outcomeOf (b.planning d) m) ⟨sh, .new true⟩ with ⟨_ | os, s⟩ <;> rfl

theorem reportAmong_run {found : Cache} {arriving : List (List Offer)}
    {r : Except Halt ModuleOutcomes}
    (h : b.reportModule d m { sh with cache := { found with incoming := arriving } } = (r, sh')) :
    b.reportAmong d found arriving m sh =
      (r, { sh' with cache := sh.cache.absorb sh'.cache }) := by
  unfold reportAmong
  exact congrArg (fun ran : _ × Shared =>
    (ran.1, { ran.2 with cache := sh.cache.absorb ran.2.cache })) h

/-- The modules one after another. -/
theorem reportAll_inOrder {meanwhile : Meanwhile} {modules : List Module}
    (h : b.options.parallel = false) : b.reportAll d meanwhile modules sh =
      (modules.mapM (b.reportModule d) >>= fun reports => pure ⟨reports⟩) sh := by
  rw [reportAll, h]
  rfl

/-- The modules at once. -/
theorem reportAll_atOnce {meanwhile : Meanwhile} {modules : List Module}
    (h : b.options.parallel = true) : b.reportAll d meanwhile modules sh =
      ((modules.zipIdx.mapM fun p => b.reportAmong d sh.cache (meanwhile p.2) p.1) >>=
        fun reports => pure ⟨reports⟩) sh := by
  rw [reportAll, h]
  rfl

/-- The report on a module with one export. If modules are analysed at once, there is no
other. -/
theorem reportAll_single {a : Arena} {supply : Nat} {name : String} {types : List Decl}
    (h : outcomeOf (b.planning d) ⟨name, types, [e]⟩ e ⟨⟨a, supply, .empty⟩, .new true⟩ =
      (.ok o, s')) :
    ∃ sh, b.reportAll d .nothing [⟨name, types, [e]⟩] ⟨a, supply, .empty⟩ =
      (.ok ⟨[⟨name, [o]⟩]⟩, sh) := by
  have outcomes : [e].mapM (outcomeOf (b.planning d) ⟨name, types, [e]⟩)
      ⟨⟨a, supply, .empty⟩, .new true⟩ = (.ok [o], s') := by
    rw [List.mapM_cons, run_bind, h]
    rfl
  have single : b.reportModule d ⟨name, types, [e]⟩ ⟨a, supply, .empty⟩ =
      (.ok ⟨name, [o]⟩, s'.shared) := by
    rw [reportModule_run, outcomes]
  have among : b.reportAmong d .empty [] ⟨name, types, [e]⟩ ⟨a, supply, .empty⟩ =
      (.ok ⟨name, [o]⟩, { s'.shared with cache := Cache.empty.absorb s'.shared.cache }) :=
    reportAmong_run single
  cases hp : b.options.parallel with
  | true =>
      refine ⟨{ s'.shared with cache := Cache.empty.absorb s'.shared.cache }, ?_⟩
      rw [reportAll_atOnce hp, List.zipIdx_cons, List.zipIdx_nil, List.mapM_cons, run_bind, run_bind]
      dsimp only [Meanwhile.nothing]
      rw [among]
      rfl
  | false =>
      refine ⟨s'.shared, ?_⟩
      rw [reportAll_inOrder hp, List.mapM_cons, run_bind, run_bind, single]
      rfl

theorem reportModule_ok (h : b.reportModule d m sh = (.ok reported, sh')) :
    reported.module = m.name ∧ ∃ s', Traces (outcomeOf (b.planning d) m) m.exports ⟨sh, .new true⟩
      reported.outcomes s' ∧ sh' = s'.shared := by
  rw [reportModule_run] at h
  split at h
  · next os s hrun =>
      cases h
      exact ⟨rfl, s, mapM_eq_ok hrun, rfl⟩
  · cases h

end Batch

/-! ## The plan of a call -/

/-- Of the available bodies, a plan has those that it needs. -/
theorem Plan.make_contents {key : Key} {found : Finding} {convention : Option Convention}
    {available : FixTable} {plan : Plan} (h : make key found convention available = .ok plan)
    (u : TyId) : plan.fixpoints.contents u =
      if u ∈ available.needed (plan.converters.flatMap targets) then available.contents u
      else none := by
  obtain ⟨-, -, -, hfind, -⟩ := make_spec h
  rw [FixTable.contents, hfind]
  split <;> rfl

namespace World

variable {w : World} {call : Call} {a a' : Answer} {k k' : Bool} {m m' : Memory} {t t' : FixTable}
  {key : Key} {plan plan' : Plan} {B B' : Contents}

theorem canon_unique {xs : List TyId} {cs ds : List Assembly.Content}
    (h : List.Forall₂ (fun x c => w.Good x ∧ w.Canon x c) xs cs)
    (h' : List.Forall₂ (fun x c => w.Good x ∧ w.Canon x c) xs ds) : cs = ds :=
  List.right_unique_forall₂' (fun _ _ _ hc hd => hc.2.unique hd.2) h h'

/-- All backed answers to a call are the same. -/
theorem Backed.same (h : w.Backed call a B) (h' : w.Backed call a' B') :
    a.Same a' ∧ ∀ u, u ∈ a.targets ↔ u ∈ a'.targets := by
  obtain ⟨cs, htells, hcs, -⟩ := h
  obtain ⟨cs', htells', hcs', -⟩ := h'
  obtain rfl := canon_unique hcs hcs'
  have length := length_of_types hcs
  exact ⟨htells.same htells', fun u =>
    (htells.mem_targets length).trans (htells'.mem_targets length).symm⟩

/-- From backed answers to a call, all calm planners need the same bodies. -/
theorem Calm.sameFrom (hm : w.Calm k m) (h : w.Backed call a m.bodies) (hm' : w.Calm k' m')
    (h' : w.Backed call a' m'.bodies) (ht : t.contents = m.bodies) (ht' : t'.contents = m'.bodies) :
    t.SameFrom t' a.targets := by
  obtain ⟨cs, htells, hcs, hback⟩ := h
  obtain ⟨cs', -, hcs', hback'⟩ := h'
  obtain rfl := canon_unique hcs hcs'
  exact .of_calm hm hm' ht ht' hcs hback hback' fun u => htells.mem_targets (length_of_types hcs)

/-- The plan is made of an answer to the call, by a calm planner. -/
def Fulfils (w : World) (key : Key) (call : Call) (plan : Plan) : Prop :=
  ∃ k m a t, w.Calm k m ∧ w.Backed call a m.bodies ∧ FixTable.contents t = m.bodies ∧
    Plan.make key a.finding a.convention? t = .ok plan

/-- Plans of the same answer are of the same kind. -/
theorem sameKind_of_same {kind kind' : Conversion} (h : a.Same a')
    (hkind : Plan.conversionOf key a.finding a.convention? = .ok kind)
    (hkind' : Plan.conversionOf key a'.finding a'.convention? = .ok kind') :
    Plan.sameContent.sameKind kind kind' = true := by
  cases a with
  | converter c =>
      cases a' with
      | converter c' => cases hkind; cases hkind'; exact decide_eq_true h
      | signature p' => exact h.elim
  | signature p =>
      cases a' with
      | converter c' => exact h.elim
      | signature p' =>
          obtain ⟨convention, args, ret, shim⟩ := h
          simp only [Answer.finding, Answer.convention?, Plan.conversionOf] at hkind hkind'
          split at hkind <;> cases hkind
          split at hkind' <;> cases hkind'
          simp [Plan.sameContent.sameKind, Converter.sameContent, *]

/-- All calm planners make the same plan of a call. -/
theorem Fulfils.same (h : w.Fulfils key call plan) (h' : w.Fulfils key call plan') :
    plan.sameContent plan' = true ∧ plan.rebuildsBoxes = plan'.rebuildsBoxes := by
  obtain ⟨k, m, a, t, hm, hback, ht, hplan⟩ := h
  obtain ⟨k', m', a', t', hm', hback', ht', hplan'⟩ := h'
  obtain ⟨same, targets⟩ := hback.same hback'
  obtain ⟨needed, found⟩ := hm.sameFrom hback hm' hback' ht ht'
  obtain ⟨hkey, hkind, sorted, -⟩ := Plan.make_spec hplan
  obtain ⟨hkey', hkind', sorted', -⟩ := Plan.make_spec hplan'
  have converters : plan.converters = a.converters := Answer.converters_of_kind hkind
  have converters' : plan'.converters = a'.converters := Answer.converters_of_kind hkind'
  constructor
  · have bodies : plan.fixpoints.contents = plan'.fixpoints.contents := by
      funext u
      have needed' : u ∈ t'.needed a'.targets ↔ u ∈ t.needed a.targets := by
        simp only [needed u, FixTable.mem_needed, targets]
      rw [Plan.make_contents hplan, Plan.make_contents hplan', converters, converters',
        ← Answer.targets, ← Answer.targets]
      by_cases hu : u ∈ t.needed a.targets
      · obtain ⟨c, c', hc, hc', heq⟩ := found u hu
        rw [if_pos hu, if_pos (needed'.mpr hu), FixTable.contents, FixTable.contents, hc, hc',
          Option.map_some, heq, Option.map_some]
      · rw [if_neg hu, if_neg (mt needed'.mp hu)]
    simp only [Plan.sameContent, Bool.and_eq_true, decide_eq_true_eq]
    exact ⟨⟨hkey.trans hkey'.symm, sameKind_of_same same hkind hkind'⟩,
      sorted.entries_eq sorted' bodies⟩
  · rw [Bool.eq_iff_iff, Plan.rebuildsBoxes_iff hplan, Plan.rebuildsBoxes_iff hplan', converters,
      converters']
    exact (hm.rebuilds hback ht).trans (hm'.rebuilds hback' ht').symm

end World

/-! ## The outcome of a verdict -/

/-- Both outcomes are the same but for the stamps of instances. -/
structure Outcome.Same (o o' : Outcome) : Prop where
  declaration : o.declaration = o'.declaration
  diagnostics : o.diagnostics = o'.diagnostics
  plan : Option.Rel (fun p q => p.sameContent q = true) o.plan o'.plan

namespace World

variable {w : World} {call : Call} {out : Verdict} {key : Key} {o o' : Outcome} {k : Bool}
  {d : Nat} {r : Except Halt Answer} {s s' : PlanState} {m m' : Memory}

/-- The outcome that a verdict leads to. -/
def Reported (w : World) (key : Key) (call : Call) (out : Verdict) (o : Outcome) : Prop :=
  match out with
  | .ok _ => ∃ plan, w.Fulfils key call plan ∧ o = Batch.accepted key plan
  | .error f => o = Batch.refused key f.fault f.way

theorem Reported.same (h : w.Reported key call out o) (h' : w.Reported key call out o') :
    o.Same o' := by
  cases out with
  | error f =>
      cases h
      cases h'
      exact ⟨rfl, rfl, .none⟩
  | ok result =>
      obtain ⟨plan, hplan, rfl⟩ := h
      obtain ⟨plan', hplan', rfl⟩ := h'
      obtain ⟨same, rebuilds⟩ := hplan.same hplan'
      exact ⟨rfl, by rw [Batch.accepted, Batch.accepted, rebuilds], .some same⟩

/-- A call that was told its verdict, and that noted the way to the fault, leads to the outcome
of the verdict. -/
theorem concluded_reported (key : Key) (told : Told call out r)
    (noted : s.planner.takePath.1 = Failure.wayOf out) (backed : ∀ a, r = .ok a →
      ∃ k m, w.Calm k m ∧ w.Backed call a m.bodies ∧ s.planner.fixpoints.contents = m.bodies) :
    ∃ o s', Batch.concluded key (r, s) = (.ok o, s') ∧ w.Reported key call out o := by
  cases out with
  | error f =>
      cases told
      exact ⟨_, _, rfl, by rw [Reported, noted, Failure.wayOf]⟩
  | ok result =>
      obtain ⟨a, rfl, -⟩ := told
      obtain ⟨k, m, hm, hback, ht⟩ := backed a rfl
      obtain ⟨kind, hkind⟩ := hback.conversion key
      obtain ⟨plan, hplan⟩ := hm.make hback ht hkind
      exact ⟨_, _, by rw [Batch.concluded, hplan], plan, ⟨k, m, a, _, hm, hback, ht, hplan⟩, rfl⟩

/-! ## The verdict on a call -/

variable {rivals : Stock → Stock → Prop} {I : Cache → Prop} {R : Set TyId} {P : Stock → Prop}

/-- The judgement's verdict on a call. A signature without a convention is refused at once. -/
def Decides (w : World) (rivals : Stock → Stock → Prop) (e : Env) (call : Call) (m : Memory)
    (out : Verdict) (m' : Memory) : Prop :=
  match call.job with
  | .ok job => w.Plans rivals e job m out m'
  | .error f => out = .error (.here f) ∧ m' = m

/-- A call that returns was told its verdict. -/
theorem call_decides (hw : w.arena.Sound) (hI : Heeds rivals I)
    (hs : Begins w I (idle k) call.types s)
    (h : call.run w.catalog w.options d s = (r, s')) :
    s'.planner.path = s.planner.path ∧
      (s'.shared.arena.Within w.arena → r ≠ .error .outOfFuel →
        ∃ out, w.Decides rivals (idle k) call s.memory out s'.memory ∧ Told call out r ∧
          s'.planner.faultPath = s.planner.noting (Failure.wayOf out)) := by
  unfold Decides
  cases hj : call.job with
  | error f =>
      cases (run_refused_call hj).symm.trans h
      exact ⟨rfl, fun _ _ => ⟨_, ⟨rfl, rfl⟩, rfl, noting_nil.symm⟩⟩
  | ok job =>
      obtain ⟨-, -, path, plans⟩ := call_ran hw hI hj hs h
      exact ⟨path, plans⟩

/-- With what the call does not lead to left out, the verdict is the same. -/
theorem Decides.on {e : Env} (h : w.Decides rivals e call m out m') (hR : w.Closed R)
    (about : ∀ x ∈ call.types, x ∈ R) :
    w.Decides (Seen R rivals) e call (m.on R) out (m'.on R) := by
  unfold Decides at h ⊢
  cases hj : call.job with
  | error f =>
      rw [hj] at h
      obtain ⟨hout, rfl⟩ := h
      exact ⟨hout, rfl⟩
  | ok job =>
      rw [hj] at h
      exact Plans.on hR h fun x hx => about x (types_of_job hj ▸ hx)

theorem Decides.persists {e : Env} (h : w.Decides rivals e call m out m') (hR : w.Closed R)
    (about : ∀ x ∈ call.types, x ∈ R) (hP : Persists R rivals P) (hm : P m.cache) : P m'.cache := by
  unfold Decides at h
  cases hj : call.job with
  | error f =>
      rw [hj] at h
      exact h.2 ▸ hm
  | ok job =>
      rw [hj] at h
      exact h.persists hP hR (fun x hx => about x (types_of_job hj ▸ hx)) hm

/-- A calm planner is calm after its verdict, and its answer is backed. -/
theorem Decides.calm (h : w.Decides rivals (idle k) call m out m') (hm : w.Calm k m)
    (fair : w.Fair rivals) (told : Told call out r) :
    w.Calm k m' ∧ ∀ a, r = .ok a → w.Backed call a m'.bodies := by
  unfold Decides at h
  cases hj : call.job with
  | error f =>
      rw [hj] at h
      obtain ⟨rfl, rfl⟩ := h
      refine ⟨hm, fun a ha => ?_⟩
      cases told.symm.trans ha
  | ok job =>
      rw [hj] at h
      refine ⟨hm.plans fair (asked_of_job hj) h, ?_⟩
      rintro a rfl
      cases out with
      | error f => cases told
      | ok result =>
          obtain ⟨_, ⟨⟩, tells⟩ := told
          exact hm.backed fair hj h tells

/-- All calm planners come to the same verdict. -/
theorem Decides.agrees {m₀ : Memory} (h : w.Decides rivals (idle k) call m out m') (hw : w.Ready)
    (fair : w.Fair rivals) (hm : w.Calm k m) (hm₀ : w.Calm false m₀) :
    ∃ m₀', w.Decides Eq (idle false) call m₀ out m₀' := by
  unfold Decides at h ⊢
  cases hj : call.job with
  | error f =>
      rw [hj] at h
      exact ⟨m₀, h.1, rfl⟩
  | ok job =>
      rw [hj] at h
      exact hm.agrees hm₀ hw fair (asked_of_job hj) h

/-- The path that is taken after a call which began with none. -/
theorem takePath_noting {p q : Planner} {way : List Segment} (hpath : p.path = [])
    (hfault : p.faultPath = none) (h : q.faultPath = p.noting way) : q.takePath.1 = way := by
  rw [takePath, h, noting, hpath, hfault]
  by_cases hw : way = [] <;> simp [hw]

/-- A new planner with an empty cache, at the end of all growth of the arena. -/
theorem at_new (w : World) (supply : Nat) : At w ((World.idle false).using true)
    (blank w.arena).memory ⟨⟨w.arena, supply, .empty⟩, .new true⟩ :=
  ⟨rfl, idle_new true, rfl, rfl, fun _ => ⟨rfl, rfl⟩⟩

/-- With an empty cache, the call of a new planner is told its verdict. -/
theorem Decides.fresh (h : w.Decides Eq (idle false) call (blank w.arena).memory out m)
    (hw : w.Ready) (hx : ∀ x ∈ call.types, w.arena.Has x) :
    ∃ n, ∀ supply, ∀ depth ≥ n, ∃ r s, call.run w.catalog w.options depth
        ⟨⟨w.arena, supply, .empty⟩, .new true⟩ = (r, s) ∧ Told call out r ∧
      s.planner.takePath.1 = Failure.wayOf out ∧ ∀ a, r = .ok a →
        ∃ k m, w.Calm k m ∧ w.Backed call a m.bodies ∧ s.planner.fixpoints.contents = m.bodies := by
  have calm : w.Calm false (blank w.arena).memory := calm_blank
  have verdict := h
  unfold Decides at h
  cases hj : call.job with
  | error f =>
      rw [hj] at h
      obtain ⟨rfl, -⟩ := h
      exact ⟨0, fun supply depth _ => ⟨_, _, run_refused_call hj, rfl, rfl, by simp⟩⟩
  | ok job =>
      rw [hj] at h
      obtain ⟨n, hgoes⟩ := call_executes hw hj h rfl honestEnv_idle calm.honest hx true
      refine ⟨n, fun supply depth hdepth => ?_⟩
      obtain ⟨r, s, used, hrun, reaches, gives⟩ := hgoes depth hdepth _ (at_new w supply)
      obtain ⟨told, way⟩ := Told.of_gives gives
      refine ⟨_, s, hrun, told, takePath_noting rfl rfl (way ▸ reaches.noted), fun a ha => ?_⟩
      obtain ⟨calm', backed⟩ := verdict.calm calm fair_eq told
      exact ⟨false, m, calm', backed a ha, reaches.bodies⟩

end World

/-! ## Between two exports -/

namespace World

variable {w : World} {k k' : Stock} {x : TyId} {R shun : Set TyId}

/-- If there is a converter of the type, it is right, and all bodies below it are there. -/
def Upheld (w : World) (k : Stock) (x : TyId) : Prop :=
  ∀ c, k.converters x = some c → w.Good x ∧ w.Canon x c ∧
    ∀ u, w.Reach x u → w.Recursive u → w.Converts u → k.bodies u ≠ none

/-- All that is in the cache is right, with the bodies that it needs. -/
structure Reliable (w : World) (k : Stock) : Prop where
  converters : ∀ x, w.Upheld k x
  bodies : ∀ u c, k.bodies u = some c → w.Good u → w.Body u c

theorem reliable_empty : w.Reliable Cache.empty.stock := ⟨nofun, nofun⟩

theorem Reliable.vouched (h : w.Reliable k) : w.Vouched k.converters := fun x c hc =>
  ⟨(h.converters x c hc).1, (h.converters x c hc).2.1⟩

theorem Reliable.supplies (h : w.Reliable k) : w.Supplies k where
  bodies := h.bodies
  closed x hx := by
    obtain ⟨c, hc⟩ := Option.ne_none_iff_exists'.mp hx
    exact (h.converters x c hc).2.2

/-- What others add is right, and what there was stays. -/
theorem Gains.upheld (h : w.Gains shun k k') (hx : w.Upheld k x) : w.Upheld k' x := by
  intro c hc
  rcases h.converters x with same | ⟨-, -, ⟨d, hd, good, canon⟩, bodies⟩
  · obtain ⟨good, canon, bodies⟩ := hx c (same ▸ hc)
    exact ⟨good, canon, fun u hxu hrec hconv => h.bodies_mono (bodies u hxu hrec hconv)⟩
  · cases hc.symm.trans hd
    exact ⟨good, canon, bodies⟩

/-- Converters of other types stay upheld. -/
theorem persists_upheld (hx : x ∉ R) : Persists R (w.Gains shun) fun k => w.Upheld k x where
  rivals h := h.upheld
  body _ _ h c hc := by
    obtain ⟨good, canon, bodies⟩ := h c hc
    exact ⟨good, canon, fun u hxu hrec hconv =>
      Contents.extends_keep.ne_none (bodies u hxu hrec hconv)⟩
  converter {_ y} _ hy h c hc := by
    have hne : x ≠ y := by
      rintro rfl
      exact hx hy
    exact h c ((Contents.keep_of_ne hne).symm.trans hc)

end World

/-- A module's planner after an export, or before the first: it is at rest but for the path that
it may have noted. The arena has these types, and `I` holds of the cache. -/
structure PlanState.Between (w : World) (I : Cache → Prop) (tys : List TyId) (s : PlanState) :
    Prop where
  begins : Begins w I (World.idle true) tys s.forgetting
  path : s.planner.path = []

/-- What the planner of a module remembers of the types in `R` is right, and the cache is
reliable. -/
structure PlanState.Knows (w : World) (R : Set TyId) (s : PlanState) : Prop where
  calm : w.Calm true (s.memory.on R)
  others : ∀ x ∉ R, w.Upheld s.shared.cache.stock x

section Knows

variable {w : World} {R : Set TyId} {s : PlanState} {sh : Shared} {I : Cache → Prop}
  {tys : List TyId}

theorem PlanState.Knows.reliable (h : s.Knows w R) : w.Reliable s.shared.cache.stock where
  converters x c hc := by
    by_cases hx : x ∈ R
    · have there : (s.memory.on R).cache.converters x = some c := (Contents.on_mem hx).trans hc
      obtain ⟨good, canon⟩ := h.calm.honest.cached x c there
      exact ⟨good, canon, h.calm.sane.supplies.closed x (by rw [there]; nofun)⟩
    · exact h.others x hx c hc
  bodies := h.calm.sane.supplies.bodies

theorem World.Reliable.knows (h : w.Reliable sh.cache.stock) (R : Set TyId) :
    PlanState.Knows w R ⟨sh, .new true⟩ :=
  ⟨(calm_new true h.vouched h.supplies).on, fun x _ => h.converters x⟩

theorem PlanState.between_new (h : Begins w I (World.idle true) tys ⟨sh, .new true⟩) :
    PlanState.Between w I tys ⟨sh, .new true⟩ := ⟨h, rfl⟩

end Knows

/-! ## One export -/

namespace Batch

/-- The world of a batch over an arena. -/
def world (b : Batch) (a : Arena) : World := ⟨b.catalog, b.options.planner, a⟩

/-- A new batch over the arena that analyses this export alone comes to this outcome. -/
def Isolates (b : Batch) (a : Arena) (module : String) (e : Export) (o : Outcome) : Prop :=
  ∃ n, ∀ types supply, ∀ depth ≥ n, ∃ o' sh,
    b.reportAll depth .nothing [⟨module, types, [e]⟩] ⟨a, supply, .empty⟩ =
      (.ok ⟨[⟨module, [o']⟩]⟩, sh) ∧ o.Same o'

variable {b : Batch} {a : Arena} {d : Nat} {m : Module} {e : Export} {s s' : PlanState}
  {o : Outcome} {tys : List TyId} {rivals : Stock → Stock → Prop} {I : Cache → Prop}

/-- The call behind an outcome. -/
theorem outcomeOf_ok (h : outcomeOf (b.planning d) m e s = (.ok o, s')) :
    ∃ r s₁, (e.kind.call s.shared.arena).run b.catalog b.options.planner d s.forgetting = (r, s₁) ∧
      concluded (m.keyOf e) (r, s₁) = (.ok o, s') ∧ r ≠ .error .outOfFuel ∧
        s'.shared = s₁.shared ∧ s'.forgetting = s₁.forgetting := by
  rw [outcomeOf_run] at h
  rcases hrun : (e.kind.call s.shared.arena).run b.catalog b.options.planner d s.forgetting with
    ⟨r, s₁⟩
  rw [hrun] at h
  obtain ⟨hr, forgets⟩ := concluded_ok h
  have same : s'.forgetting.shared = s₁.forgetting.shared := congrArg PlanState.shared forgets
  exact ⟨r, s₁, rfl, h, hr, same, forgets⟩

/-- The planner before the call of an export. -/
theorem between_begins {I' : Cache → Prop} (hs : s.Between (b.world a) I tys)
    (hx : ∀ x ∈ e.kind.types, x ∈ tys) (hI : I' s.shared.cache) :
    Begins (b.world a) I' (World.idle true) (e.kind.call s.shared.arena).types s.forgetting :=
  ⟨hs.begins.sound, hs.begins.spans,
    Exported.call_has hs.begins.sound fun x hmem => hs.begins.has x (hx x hmem), hs.begins.env, hI⟩

theorem outcomeOf_grows (ha : a.Sound) (hI : Heeds rivals I) (hs : s.Between (b.world a) I tys)
    (hx : ∀ x ∈ e.kind.types, x ∈ tys) (h : outcomeOf (b.planning d) m e s = (.ok o, s')) :
    s.shared.arena.Within s'.shared.arena ∧ s'.Between (b.world a) I tys := by
  obtain ⟨r, s₁, hrun, -, -, same, forgets⟩ := outcomeOf_ok h
  have begins := between_begins hs hx hs.begins.heeds
  obtain ⟨ends, within⟩ := call_begins (w := b.world a) ha hI begins hrun
  have path := (call_decides (w := b.world a) ha hI begins hrun).1
  have left : s'.forgetting.planner = s₁.forgetting.planner := congrArg PlanState.planner forgets
  refine ⟨same ▸ within, ⟨?_, ?_, fun x hmem => ?_, ?_, ?_⟩, ?_⟩
  · exact same ▸ ends.sound
  · exact same ▸ ends.spans
  · exact same ▸ within.has (hs.begins.has x hmem)
  · exact left ▸ ⟨ends.env.caching, ends.env.pending, ends.env.guesses, ends.env.depth⟩
  · exact same ▸ ends.heeds
  · exact (congrArg Planner.path left).trans (path.trans hs.path)

/-- A new batch comes to the outcome of the verdict. -/
theorem isolates_of_decides {out : Verdict} {m₀ : Memory} (hw : (b.world a).Ready)
    (hx : ∀ x ∈ (e.kind.call a).types, a.Has x)
    (verdict : (b.world a).Decides Eq (World.idle false) (e.kind.call a) (blank a).memory out m₀)
    (reported : (b.world a).Reported (m.keyOf e) (e.kind.call a) out o) :
    b.Isolates a m.name e o := by
  obtain ⟨n, fresh⟩ := verdict.fresh hw hx
  refine ⟨n, fun types supply depth hdepth => ?_⟩
  obtain ⟨r, s, hrun, told, taken, backed⟩ := fresh supply depth hdepth
  obtain ⟨o', s', hcon, reported'⟩ := concluded_reported _ told taken backed
  have single : outcomeOf (b.planning depth) ⟨m.name, types, [e]⟩ e ⟨⟨a, supply, .empty⟩, .new true⟩ =
      (.ok o', s') := by
    rw [outcomeOf_run]
    exact (congrArg (concluded _) hrun).trans hcon
  obtain ⟨sh, report⟩ := reportAll_single single
  exact ⟨o', sh, report, reported.same reported'⟩

/-- What a planner between two exports makes of the next one, while others share what fits, a
new batch makes of it alone. -/
theorem outcomeOf_isolated (hw : (b.world a).Ready) (hs : s.Between (b.world a) I tys)
    (hx : ∀ x ∈ e.kind.types, x ∈ tys)
    (hfits : (b.world a).Expects ((b.world a).Knots tys) s.shared.cache)
    (knows : s.Knows (b.world a) ((b.world a).Reached tys))
    (h : outcomeOf (b.planning d) m e s = (.ok o, s')) (hsa : s.shared.arena.Within a)
    (hsa' : s'.shared.arena.Within a) :
    (b.world a).Expects ((b.world a).Knots tys) s'.shared.cache ∧
      s'.Knows (b.world a) ((b.world a).Reached tys) ∧ b.Isolates a m.name e o := by
  obtain ⟨r, s₁, hrun, hcon, hr, same, forgets⟩ := outcomeOf_ok h
  have has : ∀ x ∈ e.kind.types, s.shared.arena.Has x := fun x hmem => hs.begins.has x (hx x hmem)
  have begins := between_begins hs hx hfits
  have call_eq : e.kind.call a = e.kind.call s.shared.arena := Exported.call_within hsa has
  rw [← call_eq] at hrun begins
  have about : ∀ x ∈ (e.kind.call a).types, x ∈ (b.world a).Reached tys := fun x hmem => by
    obtain ⟨y, hy, hyx⟩ := Exported.call_reached (w := b.world a) x hmem
    exact ⟨y, hx y hy, hyx⟩
  have expects := (call_begins hw.sound (heeds_expects hw) begins hrun).1.heeds
  obtain ⟨-, decided⟩ := call_decides hw.sound (heeds_expects hw) begins hrun
  obtain ⟨out, verdict, told, noted⟩ := decided (same ▸ hsa') hr
  have taken := takePath_noting (p := s.forgetting.planner) hs.path rfl noted
  -- Only what the exports lead to matters, and there the others are fair.
  have fair : (b.world a).Fair (Seen ((b.world a).Reached tys)
      ((b.world a).Gains ((b.world a).Knots tys))) := fair_gains fun x hmem hcyclic => ⟨hcyclic, hmem⟩
  have seen := verdict.on closed_reached about
  obtain ⟨calm, backed⟩ := seen.calm knows.calm fair told
  obtain ⟨o', s'', hcon', reported⟩ := concluded_reported (w := b.world a) (m.keyOf e) told
    taken fun a ha => ⟨true, _, calm, backed a ha, rfl⟩
  cases hcon'.symm.trans hcon
  obtain ⟨m₀, verdict₀⟩ := seen.agrees hw fair knows.calm calm_blank
  have memory : s'.forgetting.memory = s₁.forgetting.memory :=
    congrArg (fun t : PlanState => t.memory) forgets
  replace memory : s'.memory = s₁.memory := memory
  refine ⟨same ▸ expects, ⟨memory ▸ calm, fun x hmem => ?_⟩, ?_⟩
  · rw [same]
    exact verdict.persists closed_reached about (persists_upheld hmem) (knows.others x hmem)
  · exact isolates_of_decides hw (fun x hmem => hsa.has (begins.has x hmem)) verdict₀ reported

end Batch

end Marshal
