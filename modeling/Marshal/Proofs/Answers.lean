import Marshal.Proofs.Conventions

/-!
# From an answer to a plan

What a planner has answered stays backed by its bodies: whatever else it is asked
later, it keeps a body for all that the answer defers to, and every body that is led
to from there is the right one (`World.Calm.backs`). So a plan can be made of every
answer, at once or later (`World.Calm.make`).
-/

namespace Marshal

open Converter Planner PlanM World

/-! ## The bodies of a plan -/

namespace Plan

variable {available : FixTable} {key : Key} {found : Finding} {convention : Option Convention}
  {kind : Conversion} {plan : Plan}

theorem bodies_eq_ok : ∀ {ids : List TyId}, (∀ u ∈ ids, available.find? u ≠ none) →
    ∃ t, bodies available ids = .ok t
  | [], _ => ⟨.empty, rfl⟩
  | ty :: ids, h => by
      obtain ⟨t, ht⟩ := bodies_eq_ok fun u hu => h u (List.mem_cons_of_mem _ hu)
      obtain ⟨body, hbody⟩ := Option.ne_none_iff_exists'.mp (h ty (List.mem_cons_self ..))
      exact ⟨t.insert ty body, by simp [bodies, hbody, ht, Except.map]⟩

theorem bodies_spec : ∀ {ids : List TyId} {t : FixTable}, bodies available ids = .ok t →
    t.Sorted ∧ (∀ u, t.find? u = if u ∈ ids then available.find? u else none) ∧
      ∀ u ∈ ids, available.find? u ≠ none
  | [], _, h => by
      cases h
      exact ⟨FixTable.sorted_empty, fun u => by simp [FixTable.find?, FixTable.empty], nofun⟩
  | ty :: ids, t, h => by
      rw [bodies] at h
      split at h
      · cases h
      · next body hbody =>
          cases hrest : bodies available ids with
          | error f => rw [hrest] at h; cases h
          | ok rest =>
              rw [hrest] at h
              cases h
              obtain ⟨sorted, hfind, hall⟩ := bodies_spec hrest
              refine ⟨sorted.insert ty body, fun u => ?_, fun u hu => ?_⟩
              swap
              · rcases List.mem_cons.mp hu with rfl | hu
                · simp [hbody]
                · exact hall u hu
              have there : (rest.insert ty body).find? u =
                  if u = ty then some body else rest.find? u :=
                FixTable.lookup_insertEntry ty body rest.entries u
              rw [there, hfind]
              by_cases hu : u = ty
              · subst hu
                simp [hbody]
              · simp [hu]

/-- A plan holds the bodies that it needs, and no others. -/
theorem make_spec (h : make key found convention available = .ok plan) :
    plan.declaration = key ∧ conversionOf key found convention = .ok plan.kind ∧
      plan.fixpoints.Sorted ∧ (∀ u, plan.fixpoints.find? u =
        if u ∈ available.needed (plan.converters.flatMap targets) then available.find? u
        else none) ∧
      ∀ u ∈ available.needed (plan.converters.flatMap targets), available.find? u ≠ none := by
  unfold make at h
  cases hkind : conversionOf key found convention with
  | error f => rw [hkind] at h; cases h
  | ok kind =>
      cases ht : bodies available (available.needed (kind.converters.flatMap targets)) with
      | error f => simp [hkind, ht, bind, Except.bind] at h
      | ok t =>
          obtain rfl : (⟨key, kind, t⟩ : Plan) = plan := by
            simpa [hkind, ht, bind, Except.bind, pure, Except.pure] using h
          exact ⟨rfl, rfl, bodies_spec ht⟩

/-- A plan is made if all bodies that are needed are there. -/
theorem make_eq_ok (hkind : conversionOf key found convention = .ok kind)
    (h : ∀ u ∈ available.needed (kind.converters.flatMap targets), available.find? u ≠ none) :
    ∃ plan, make key found convention available = .ok plan := by
  obtain ⟨t, ht⟩ := bodies_eq_ok h
  exact ⟨⟨key, kind, t⟩, by simp [make, hkind, ht, bind, Except.bind, pure, Except.pure]⟩

end Plan

/-! ## What the planner found -/

namespace Answer

/-- The answer as a finding from which a plan is made. -/
def finding : Answer → Finding
  | .converter c => .value c
  | .signature p => .function p.args p.ret p.shim

/-- The convention that goes with the answer. -/
def convention? : Answer → Option Convention
  | .converter _ => none
  | .signature p => some p.convention

/-- A plan of the answer has its converters. -/
theorem converters_of_kind {a : Answer} {key : Key} {convention : Option Convention}
    {kind : Conversion} (h : Plan.conversionOf key a.finding convention = .ok kind) :
    kind.converters = a.converters := by
  cases a with
  | converter c =>
      cases convention with
      | none => cases h; rfl
      | some convention => cases h
  | signature p =>
      cases convention with
      | none => cases h
      | some convention =>
          simp only [finding, Plan.conversionOf] at h
          split at h
          · cases h; rfl
          · cases h

end Answer

/-! ## Answers are backed -/

namespace World

variable {w : World} {call : Call} {a : Answer} {k : Bool} {m : Memory} {t : FixTable}
  {B B' : Contents} {u : TyId}

/-- The answer is made of the canonical contents of good types, and whatever they defer to has
a body. -/
def Backed (w : World) (call : Call) (a : Answer) (B : Contents) : Prop :=
  ∃ cs, Tells call cs a ∧ List.Forall₂ (fun x c => w.Good x ∧ w.Canon x c) call.types cs ∧
    ∀ c ∈ cs, ∀ u ∈ (bare c).targets, B u ≠ none

theorem Backed.later (h : w.Backed call a B) (hB : ∀ u, B u ≠ none → B' u ≠ none) :
    w.Backed call a B' := by
  obtain ⟨cs, htells, hcs, hbacked⟩ := h
  exact ⟨cs, htells, hcs, fun c hc u hu => hB u (hbacked c hc u hu)⟩

theorem length_of_types {P : TyId → Assembly.Content → Prop} {cs : List Assembly.Content}
    (h : List.Forall₂ P call.types cs) :
    ∀ job, call.job = .ok job → cs.length = job.types.length := by
  intro job hj
  rw [types_of_job hj]
  exact h.length_eq.symm

/-- Whatever is led to from the answer is good and has its right body. -/
theorem Calm.backs (hm : w.Calm k m) (h : w.Backed call a m.bodies) (ht : t.contents = m.bodies)
    (hu : u ∈ t.needed a.targets) :
    w.Good u ∧ ∃ body, t.find? u = some body ∧ w.Body u body.content := by
  obtain ⟨cs, htells, hcs, hbacked⟩ := h
  obtain ⟨r, hr, hl⟩ := (FixTable.mem_needed t).mp hu
  obtain ⟨c, hc, hrc⟩ := (htells.mem_targets (length_of_types hcs)).mp hr
  obtain ⟨x, -, hx, hcanon⟩ := exists_of_mem_right hcs hc
  rw [ht] at hl
  obtain ⟨hgood, b, hb, hbody⟩ := hm.body hx hcanon (hbacked c hc) hrc hl
  rw [← ht] at hb
  obtain ⟨body, hfind, rfl⟩ := Option.map_eq_some_iff.mp hb
  exact ⟨hgood, body, hfind, hbody⟩

/-- A plan can be made of a backed answer. -/
theorem Calm.make (hm : w.Calm k m) (h : w.Backed call a m.bodies) (ht : t.contents = m.bodies)
    {key : Key} {convention : Option Convention} {kind : Conversion}
    (hkind : Plan.conversionOf key a.finding convention = .ok kind) :
    ∃ plan, Plan.make key a.finding convention t = .ok plan := by
  refine Plan.make_eq_ok hkind fun u hu => ?_
  rw [Answer.converters_of_kind hkind] at hu
  obtain ⟨-, body, hbody, -⟩ := hm.backs h ht hu
  rw [hbody]
  nofun

/-- The parts of a signature, as an answer tells them. -/
theorem Backed.signature {sig : Signature} {p : SignaturePlan}
    (h : w.Backed (.signature sig) (.signature p) B) :
    Convention.ofSignature sig = .ok p.convention ∧ p.args.length = p.convention.arity ∧
      p.convention.arity = sig.params.length ∧
      p.shim.content = Assembly.shim sig p.convention p.args p.ret := by
  obtain ⟨cs, ⟨convention, q, hconv, ⟨⟩, rfl, hq, hshim⟩, hcs, -⟩ := h
  have arity := (Convention.ofSignature_spec hconv).2.2.1
  have params : (Part.ofParams p.convention 0 sig.params).length = sig.params.length := by
    simpa using congrArg List.length (ofParams_ty p.convention 0 sig.params)
  have total := congrArg List.length hq
  have types := hcs.length_eq
  simp only [Part.ofSignature, Call.types, params, List.length_map, List.length_append,
    List.length_cons, List.length_nil, List.length_zipWith] at total types
  exact ⟨hconv, by omega, arity, hshim⟩

/-- An answer goes with its own convention. -/
theorem Backed.conversion (h : w.Backed call a B) (key : Key) :
    ∃ kind, Plan.conversionOf key a.finding a.convention? = .ok kind := by
  cases call with
  | type ty =>
      obtain ⟨cs, ⟨c, rfl, -⟩, -, -⟩ := h
      exact ⟨_, rfl⟩
  | signature sig =>
      obtain ⟨cs, ⟨convention, p, -, rfl, -⟩, -, -⟩ := id h
      exact ⟨_, if_pos h.signature.2.1.symm⟩

/-- An answer that tells what a calm planner has planned is backed. -/
theorem Calm.backed {rivals : Stock → Stock → Prop} {job : Job} {cs : List Assembly.Content}
    {U : Set TyId} {m' : Memory} (hm : w.Calm k m) (fair : w.Fair rivals) (hj : call.job = .ok job)
    (hplans : w.Plans rivals (idle k) job m (.ok (cs, U)) m') (ha : Tells call cs a) :
    w.Backed call a m'.bodies := by
  have asked := asked_of_job hj
  refine ⟨cs, ha, ?_, hm.covered fair asked hplans⟩
  rw [← types_of_job hj]
  exact (hm.result fair asked hplans).2

/-- What a calm planner answers is backed. -/
theorem Calm.answered {d : Nat} {s s' : PlanState}
    (hs : Begins w Cache.Quiet (World.idle k) call.types s) (hw : w.Ready)
    (hm : w.Calm k s.memory) (h : call.run w.catalog w.options d s = (.ok a, s'))
    (hb : s'.shared.arena.Within w.arena) :
    w.Calm k s'.memory ∧ w.Backed call a s'.memory.bodies := by
  obtain ⟨hm', -, ⟨f, -, hr⟩ | ⟨job, out, hj, hplans, told⟩⟩ := hm.called hs hw h nofun hb
  · cases hr
  cases out with
  | error f => cases told
  | ok result =>
      obtain ⟨cs, U⟩ := result
      obtain ⟨a', hr, htells⟩ := told
      cases hr
      exact ⟨hm', hm.backed fair_eq hj hplans htells⟩

end World

/-! ## Answers in a session -/

variable {catalog : Catalog} {options : Options} {S S' : Session} {p : Planner} {d i : Nat}
  {call : Call} {a : Answer} {s : PlanState}

theorem Session.Comes.answered (hS : Comes catalog options S) (hp : S.planners[i]? = some p)
    (hx : ∀ x ∈ call.types, S.shared.arena.Has x)
    (hrun : call.run catalog options d ⟨S.shared, p⟩ = (.ok a, s)) {b : Arena} (hb : b.Sound)
    (hsb : s.shared.arena.Within b) :
    World.Calm ⟨catalog, options, b⟩ p.caching s.memory ∧
      World.Backed ⟨catalog, options, b⟩ call a s.memory.bodies := by
  obtain ⟨begins, hw, calm⟩ := hS.begins hp hx hrun hb hsb
  exact calm.answered begins hw hrun hsb

end Marshal
