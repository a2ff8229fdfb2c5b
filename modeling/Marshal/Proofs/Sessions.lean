import Marshal.Proofs.Calls
import Marshal.Proofs.Portions

/-!
# What planners remember cannot be seen

Several planners work over one arena, some of them with a cache that they share.
They are called in any order, and calls may fail. What a planner remembers of
earlier calls, and what it finds in the cache, has no part in what it answers:
every call comes to what the same call of a new planner without a cache comes to
(`Session.Comes.transparent`).

Between two calls all memories are calm and the cache is complete, and a call
keeps that (`Session.Calm.call`).
-/

namespace Marshal

open Converter Planner PlanM World

/-! ## Sessions -/

/-- Planners, and what they share. -/
structure Session where
  shared : Shared
  planners : List Planner
  deriving DecidableEq

/-- The session after a call of its planner `i` that ended in this state. -/
def Session.after (S : Session) (i : Nat) (s : PlanState) : Session :=
  ⟨s.shared, S.planners.set i s.planner⟩

/-- Sessions that come about from an empty cache by calls that return, while new
planners join and types are added to the arena. -/
inductive Session.Comes (catalog : Catalog) (options : Options) : Session → Prop
  | opens {a : Arena} {supply : Nat} : a.Sound → catalog.Over a →
      Comes catalog options ⟨⟨a, supply, .empty⟩, []⟩
  | joins {S : Session} (caching : Bool) : Comes catalog options S →
      Comes catalog options { S with planners := S.planners ++ [.new caching] }
  | grows {S : Session} {a : Arena} : Comes catalog options S → S.shared.arena.Within a → a.Sound →
      Comes catalog options { S with shared := { S.shared with arena := a } }
  | calls {S : Session} {i : Nat} {p : Planner} {call : Call} {d : Nat} {r : Except Halt Answer}
      {s : PlanState} : Comes catalog options S → S.planners[i]? = some p →
      (∀ x ∈ call.types, S.shared.arena.Has x) →
      call.run catalog options d ⟨S.shared, p⟩ = (r, s) → r ≠ .error .outOfFuel →
      Comes catalog options (S.after i s)

/-! ## Outcomes -/

/-- From the roots on, both tables need the same bodies, and have them. -/
def FixTable.SameFrom (t t' : FixTable) (roots : List TyId) : Prop :=
  (∀ u, u ∈ t.needed roots ↔ u ∈ t'.needed roots) ∧ ∀ u ∈ t.needed roots,
    ∃ c c', t.find? u = some c ∧ t'.find? u = some c' ∧ c.content = c'.content

/-- Both results are the same answer, with the same bodies below it, or the same
fault. -/
def SameOutcome (r : Except Halt Answer) (t : FixTable) (r' : Except Halt Answer) (t' : FixTable) :
    Prop :=
  match r, r' with
  | .ok a, .ok a' => a.Same a' ∧ t.SameFrom t' a.targets
  | .error h, .error h' => h = h'
  | _, _ => False

/-! ## Between two calls -/

/-- The arena of a session is one that interning builds, and no planner is at work. -/
structure Session.Rests (catalog : Catalog) (S : Session) : Prop where
  sound : S.shared.arena.Sound
  spans : catalog.Over S.shared.arena
  quiet : S.shared.cache.Quiet
  idle : ∀ p ∈ S.planners, (idle p.caching).Of p

/-- What is true of a session between two calls. -/
structure Session.Calm (w : World) (S : Session) : Prop extends S.Rests w.catalog where
  vouched : w.Vouched S.shared.cache.stock.converters
  supplies : w.Supplies S.shared.cache.stock
  planners : ∀ p ∈ S.planners, w.Calm p.caching (PlanState.memory ⟨S.shared, p⟩)

section Calls

variable {w : World} {S : Session} {p : Planner} {call : Call} {d i : Nat}
  {r : Except Halt Answer} {s : PlanState}

theorem calm_new {sh : Shared} (k : Bool) (hv : w.Vouched sh.cache.stock.converters)
    (hs : w.Supplies sh.cache.stock) : w.Calm k (PlanState.memory ⟨sh, .new k⟩) where
  honest := ⟨nofun, hv⟩
  sane := ⟨hs, nofun, nofun, nofun, fun _ _ h => absurd rfl h⟩
  right := by
    rintro u ⟨-, -, -, c, hc, -⟩
    cases hc

theorem idle_new (k : Bool) : (idle k).Of (.new k) := ⟨rfl, rfl, fun _ => rfl, rfl⟩

theorem supplies_empty : w.Supplies Cache.empty.stock :=
  ⟨nofun, fun _ h => absurd rfl h⟩

theorem calm_blank : w.Calm false (blank w.arena).memory :=
  calm_new false nofun supplies_empty

theorem Session.Rests.begins {w : World} (hS : S.Rests w.catalog) (hp : S.planners[i]? = some p)
    (hx : ∀ x ∈ call.types, S.shared.arena.Has x) :
    Begins w Cache.Quiet (World.idle p.caching) call.types ⟨S.shared, p⟩ :=
  ⟨hS.sound, hS.spans, hx, hS.idle p (List.mem_of_getElem? hp), hS.quiet⟩

/-- Whatever others do with the cache, a call leaves its planner at rest, and the arena is
later. -/
theorem call_begins {rivals : Stock → Stock → Prop} {I : Cache → Prop} (hw : w.arena.Sound)
    (hI : Heeds rivals I) {k : Bool} {s' : PlanState}
    (hs : Begins w I (World.idle k) call.types s)
    (h : call.run w.catalog w.options d s = (r, s')) :
    Begins w I (World.idle k) call.types s' ∧ s.shared.arena.Within s'.shared.arena := by
  cases hj : call.job with
  | error f =>
      cases (run_refused_call hj).symm.trans h
      exact ⟨hs, .refl _⟩
  | ok job =>
      obtain ⟨hs', hwithin, -, -⟩ := call_ran hw hI hj hs h
      exact ⟨hs', hwithin⟩

theorem rests_call (hw : w.arena.Sound) {k : Bool} {s' : PlanState}
    (hs : Begins w Cache.Quiet (World.idle k) call.types s)
    (h : call.run w.catalog w.options d s = (r, s')) :
    Begins w Cache.Quiet (World.idle k) call.types s' ∧
      s.shared.arena.Within s'.shared.arena :=
  call_begins hw heeds_quiet hs h

theorem Session.Rests.after {w : World} (hS : S.Rests w.catalog) {k : Bool}
    (hs : Begins w Cache.Quiet (World.idle k) call.types s) : (S.after i s).Rests w.catalog := by
  refine ⟨hs.sound, hs.spans, hs.heeds, fun q hq => ?_⟩
  rcases List.mem_or_eq_of_mem_set hq with hq | rfl
  · exact hS.idle q hq
  · rw [show s.planner.caching = k from hs.env.caching]
    exact hs.env

theorem Session.Rests.joins {catalog : Catalog} (hS : S.Rests catalog) (k : Bool) :
    Session.Rests catalog { S with planners := S.planners ++ [.new k] } := by
  refine ⟨hS.sound, hS.spans, hS.quiet, fun p hp => ?_⟩
  rcases List.mem_append.mp hp with hp | hp
  · exact hS.idle p hp
  · cases List.mem_singleton.mp hp
    exact idle_new k

theorem Session.Calm.joins (hS : S.Calm w) (k : Bool) :
    Session.Calm w { S with planners := S.planners ++ [.new k] } := by
  refine ⟨hS.toRests.joins k, hS.vouched, hS.supplies, fun p hp => ?_⟩
  rcases List.mem_append.mp hp with hp | hp
  · exact hS.planners p hp
  · cases List.mem_singleton.mp hp
    exact calm_new k hS.vouched hS.supplies

theorem Session.Comes.rests {catalog : Catalog} {options : Options}
    (h : Comes catalog options S) : S.Rests catalog := by
  induction h with
  | opens ha hc => exact ⟨ha, hc, rfl, fun p hp => absurd hp List.not_mem_nil⟩
  | joins k _ ih => exact ih.joins k
  | grows _ hsa ha ih => exact ⟨ha, ih.spans.within hsa, ih.quiet, ih.idle⟩
  | @calls S i p call d r s _ hp hx hrun _ ih =>
      let w : World := ⟨catalog, options, S.shared.arena⟩
      exact Rests.after (w := w) ih (rests_call (w := w) ih.sound (Rests.begins ih hp hx) hrun).1

/-- What is known after a call of a calm planner. -/
theorem World.Calm.called {k : Bool} {s' : PlanState}
    (hs : Begins w Cache.Quiet (World.idle k) call.types s) (hw : w.Ready)
    (hm : w.Calm k s.memory) (h : call.run w.catalog w.options d s = (r, s'))
    (hr : r ≠ .error .outOfFuel) (hb : s'.shared.arena.Within w.arena) :
    w.Calm k s'.memory ∧
      (∀ x, s.memory.cache.converters x ≠ none → s'.memory.cache.converters x ≠ none) ∧
      ((∃ f, call.job = .error f ∧ r = .error (.fault f)) ∨
        ∃ job out, call.job = .ok job ∧ w.Plans Eq (World.idle k) job s.memory out s'.memory ∧
          Told call out r) := by
  cases hj : call.job with
  | error f =>
      cases (run_refused_call hj).symm.trans h
      exact ⟨hm, fun _ h => h, .inl ⟨f, rfl, rfl⟩⟩
  | ok job =>
      obtain ⟨-, -, -, hplans⟩ := call_ran hw.sound heeds_quiet hj hs h
      obtain ⟨out, hp, told, -⟩ := hplans hb hr
      exact ⟨hm.plans fair_eq (asked_of_job hj) hp, hp.cache_grows fair_eq,
        .inr ⟨job, out, rfl, hp, told⟩⟩

theorem Session.Calm.called (hS : S.Calm w) (hw : w.Ready) (hp : S.planners[i]? = some p)
    (hx : ∀ x ∈ call.types, S.shared.arena.Has x)
    (h : call.run w.catalog w.options d ⟨S.shared, p⟩ = (r, s)) (hr : r ≠ .error .outOfFuel)
    (hb : s.shared.arena.Within w.arena) : (S.after i s).Calm w := by
  have begins := hS.toRests.begins hp hx
  have hs := (rests_call hw.sound begins h).1
  obtain ⟨hm, hgrows, -⟩ := World.Calm.called begins hw (hS.planners p (List.mem_of_getElem? hp)) h
    hr hb
  refine ⟨hS.toRests.after hs, hm.honest.cached, hm.sane.supplies, fun q hq => ?_⟩
  rcases List.mem_or_eq_of_mem_set hq with hq | rfl
  · exact (hS.planners q hq).found hm.honest.cached hm.sane.supplies hgrows
  · rw [show s.planner.caching = p.caching from hs.env.caching]
    exact hm

/-- In the world of any later arena, a session is calm between two calls. -/
theorem Session.Comes.calm {catalog : Catalog} {options : Options} (h : Comes catalog options S) :
    ∀ {b}, b.Sound → S.shared.arena.Within b → S.Calm ⟨catalog, options, b⟩ := by
  induction h with
  | opens ha hc =>
      exact fun _ _ => ⟨(opens ha hc : Comes catalog options _).rests, nofun, supplies_empty,
        fun p hp => absurd hp List.not_mem_nil⟩
  | joins k h ih => exact fun hb hab => (ih hb hab).joins k
  | grows h hsa ha ih =>
      intro b hb hab
      have hS := ih hb (hsa.trans hab)
      exact ⟨(grows h hsa ha).rests, hS.vouched, hS.supplies, hS.planners⟩
  | @calls S i p call d r s h hp hx hrun hr ih =>
      intro b hb hab
      let w : World := ⟨catalog, options, S.shared.arena⟩
      have within := (rests_call (w := w) h.rests.sound (h.rests.begins hp hx) hrun).2
      have hS := ih hb (within.trans hab)
      exact hS.called ⟨hb, hS.spans.within (within.trans hab)⟩ hp hx hrun hr hab

/-- Before a call its planner is at rest and calm, in the world of any later arena. -/
theorem Session.Comes.begins {catalog : Catalog} {options : Options} (hS : Comes catalog options S)
    (hp : S.planners[i]? = some p) (hx : ∀ x ∈ call.types, S.shared.arena.Has x)
    (hrun : call.run catalog options d ⟨S.shared, p⟩ = (r, s)) {b : Arena} (hb : b.Sound)
    (hsb : s.shared.arena.Within b) :
    Begins ⟨catalog, options, b⟩ Cache.Quiet (World.idle p.caching) call.types ⟨S.shared, p⟩ ∧
      World.Ready ⟨catalog, options, b⟩ ∧
      World.Calm ⟨catalog, options, b⟩ p.caching (PlanState.memory ⟨S.shared, p⟩) := by
  let w : World := ⟨catalog, options, b⟩
  have begins : Begins w Cache.Quiet (World.idle p.caching) call.types ⟨S.shared, p⟩ :=
    hS.rests.begins hp hx
  have within := (rests_call hb begins hrun).2.trans hsb
  have calm : S.Calm w := hS.calm hb within
  exact ⟨begins, ⟨hb, calm.spans.within within⟩, calm.planners p (List.mem_of_getElem? hp)⟩

/-! ## Any two planners agree -/

theorem exists_of_mem_right {α β : Type} {P : α → β → Prop} {xs : List α} {ys : List β} {y : β}
    (h : List.Forall₂ P xs ys) (hy : y ∈ ys) : ∃ x ∈ xs, P x y := by
  induction h with
  | nil => cases hy
  | @cons x _ _ _ hx _ ih =>
      rcases List.mem_cons.mp hy with rfl | hy
      · exact ⟨x, List.mem_cons_self .., hx⟩
      · obtain ⟨z, hz, hzy⟩ := ih hy
        exact ⟨z, List.mem_cons_of_mem _ hz, hzy⟩

theorem FixTable.SameFrom.of_calm {k k₀ : Bool} {m m₀ : Memory} {t t₀ : FixTable}
    {tys roots : List TyId}
    {cs : List Assembly.Content} (h : w.Calm k m) (h₀ : w.Calm k₀ m₀) (ht : t.contents = m.bodies)
    (ht₀ : t₀.contents = m₀.bodies)
    (hcs : List.Forall₂ (fun x c => w.Good x ∧ w.Canon x c) tys cs)
    (hc : ∀ c ∈ cs, ∀ u ∈ (bare c).targets, m.bodies u ≠ none)
    (hc₀ : ∀ c ∈ cs, ∀ u ∈ (bare c).targets, m₀.bodies u ≠ none)
    (hroots : ∀ u, u ∈ roots ↔ ∃ c ∈ cs, u ∈ (bare c).targets) : t.SameFrom t₀ roots := by
  have canon (c) (hmem : c ∈ cs) : ∃ x, w.Good x ∧ w.Canon x c :=
    (exists_of_mem_right hcs hmem).imp fun _ hx => hx.2
  refine ⟨fun u => ?_, fun u hu => ?_⟩
  · rw [FixTable.mem_needed, FixTable.mem_needed, ht, ht₀]
    constructor
    · rintro ⟨v, hv, hl⟩
      obtain ⟨c, hmem, hvc⟩ := (hroots v).mp hv
      obtain ⟨x, hx, hxc⟩ := canon c hmem
      exact ⟨v, hv, (h.same_bodies h₀ hx hxc (hc c hmem) (hc₀ c hmem) hvc hl).1⟩
    · rintro ⟨v, hv, hl⟩
      obtain ⟨c, hmem, hvc⟩ := (hroots v).mp hv
      obtain ⟨x, hx, hxc⟩ := canon c hmem
      exact ⟨v, hv, (h₀.same_bodies h hx hxc (hc₀ c hmem) (hc c hmem) hvc hl).1⟩
  · rw [FixTable.mem_needed, ht] at hu
    obtain ⟨v, hv, hl⟩ := hu
    obtain ⟨c, hmem, hvc⟩ := (hroots v).mp hv
    obtain ⟨x, hx, hxc⟩ := canon c hmem
    obtain ⟨-, b, hb, -⟩ := h.body hx hxc (hc c hmem) hvc hl
    have same := (h.same_bodies h₀ hx hxc (hc c hmem) (hc₀ c hmem) hvc hl).2
    rw [hb] at same
    rw [← ht, FixTable.contents] at hb
    rw [← ht₀, FixTable.contents] at same
    obtain ⟨d, hd, rfl⟩ := Option.map_eq_some_iff.mp hb
    obtain ⟨d₀, hd₀, hsame⟩ := Option.map_eq_some_iff.mp same
    exact ⟨d, d₀, hd, hd₀, hsame.symm⟩

/-- A new planner without a cache, at the end of all growth of the arena. -/
theorem at_blank (w : World) : At w (World.idle false) (blank w.arena).memory (blank w.arena) :=
  ⟨rfl, idle_new false, rfl, rfl, nofun⟩

theorem length_of_plans {job : Job} {rivals : Stock → Stock → Prop} {e : Env}
    {cs : List Assembly.Content} {U : Set TyId} {m m' : Memory} (hj : call.job = .ok job)
    (h : w.Plans rivals e job m (.ok (cs, U)) m') :
    ∀ job, call.job = .ok job → cs.length = job.types.length := by
  intro job' hj'
  cases hj.symm.trans hj'
  exact h.length rfl

/-- What a call was told of its plan is what the same call of a new planner without a cache
comes to, with a table that agrees wherever the answer needs it. -/
theorem World.Calm.repeated {k : Bool} {rivals : Stock → Stock → Prop} {job : Job}
    {out : Verdict} {m m' : Memory} {t : FixTable} (hm : w.Calm k m) (hw : w.Ready)
    (fair : w.Fair rivals) (hj : call.job = .ok job)
    (hplans : w.Plans rivals (World.idle k) job m out m') (ht : t.contents = m'.bodies)
    (told : Told call out r) (hx : ∀ x ∈ call.types, w.arena.Has x) :
    ∃ n, ∀ depth ≥ n, ∃ r' s', call.run w.catalog w.options depth (blank w.arena) = (r', s') ∧
      SameOutcome r t r' s'.planner.fixpoints := by
  have hm₀ : w.Calm false (blank w.arena).memory := calm_blank
  have asked := asked_of_job hj
  obtain ⟨m₀, hplans₀⟩ := hm.agrees hm₀ hw fair asked hplans
  obtain ⟨n, hgoes⟩ := call_executes hw hj hplans₀ rfl honestEnv_idle hm₀.honest hx false
  refine ⟨n, fun depth hdepth => ?_⟩
  obtain ⟨r', s', used, hrun', hs', gives⟩ := hgoes depth hdepth _ (at_blank w)
  obtain ⟨told', -⟩ := Told.of_gives gives
  refine ⟨r'.mapError Failure.halt, s', hrun', ?_⟩
  cases out with
  | error f => rw [show r = _ from told, show r'.mapError _ = _ from told']; rfl
  | ok result =>
      obtain ⟨cs, U⟩ := result
      obtain ⟨a, rfl, ha⟩ := told
      obtain ⟨a', hr', ha'⟩ := told'
      rw [hr']
      exact ⟨ha.same ha', .of_calm (hm.plans fair asked hplans) (hm₀.plans fair_eq asked hplans₀)
        ht hs'.bodies (hm.result fair asked hplans).2
        (hm.covered fair asked hplans) (hm₀.covered fair_eq asked hplans₀)
        fun u => ha.mem_targets (length_of_plans hj hplans)⟩

/-- Whatever came before it, a call that returns comes to what the same call of a new
planner without a cache comes to, over any later arena. -/
theorem Session.Comes.transparent {catalog : Catalog} {options : Options}
    (hS : Comes catalog options S) (hp : S.planners[i]? = some p)
    (hx : ∀ x ∈ call.types, S.shared.arena.Has x)
    (hrun : call.run catalog options d ⟨S.shared, p⟩ = (r, s)) (hr : r ≠ .error .outOfFuel)
    {b : Arena} (hb : b.Sound) (hsb : s.shared.arena.Within b) :
    ∃ n, ∀ depth ≥ n, ∃ r' s', call.run catalog options depth (blank b) = (r', s') ∧
      SameOutcome r s.planner.fixpoints r' s'.planner.fixpoints := by
  let w : World := ⟨catalog, options, b⟩
  have begins : Begins w Cache.Quiet (World.idle p.caching) call.types ⟨S.shared, p⟩ :=
    hS.rests.begins hp hx
  have within := (rests_call hb begins hrun).2.trans hsb
  have calm : S.Calm w := hS.calm hb within
  have hw : w.Ready := ⟨hb, calm.spans.within within⟩
  have hpm := calm.planners p (List.mem_of_getElem? hp)
  obtain ⟨-, -, refused | ⟨job, out, hj, hplans, told⟩⟩ :=
    World.Calm.called begins hw hpm hrun hr hsb
  · obtain ⟨f, hj, rfl⟩ := refused
    exact ⟨0, fun depth _ => ⟨.error (.fault f), blank b, run_refused_call (w := w) hj, rfl⟩⟩
  · exact hpm.repeated hw fair_eq hj hplans rfl told fun x hx' => within.has (hx x hx')

end Calls

/-! ## A session with trees -/

namespace Tree

def key : Key := ⟨"Tree", "tree"⟩

/-- A tree is a number and an array of trees. -/
def arena : Arena :=
  ((Arena.new.push (.named key [])).push (.array ⟨5⟩)).push
    (.record [⟨"value", Scalar.int.id, false, false⟩, ⟨"children", ⟨6⟩, false, false⟩])

def ty : TyId := ⟨5⟩

def catalog : Catalog := .ofDecls arena [⟨key, 0, ⟨7⟩⟩]

/-- Two planners with a cache. -/
def opened : Session := ⟨⟨arena, 0, .empty⟩, [.new true, .new true]⟩

/-- A call of a planner for the converter of trees. -/
def call (S : Session) (p : Planner) : Except Halt Answer × PlanState :=
  (Call.type ty).run catalog .standard 9 ⟨S.shared, p⟩

/-- The session after the first planner has planned trees. -/
def served : Session := opened.after 0 (call opened (.new true)).2

/-- What stands for trees: they defer to their body. -/
def converter : Converter := .custom 1 (.recurse ty .forward) (.recurse ty .backward)

/-- Their body: an object on the host's side, an array on the other. -/
def body : Converter :=
  let slots : List RecordSlot := [⟨"value", false⟩, ⟨"children", false⟩]
  .custom 3
    (.sequence [.atField "children" (.mapArray (.recurse ty .forward)), .wrapRecord slots])
    (.sequence [.unwrapRecord slots, .atField "children" (.mapArray (.recurse ty .backward))])

theorem call_eq (S : Session) (p : Planner) :
    (Call.type ty).run catalog .standard 9 ⟨S.shared, p⟩ = ((call S p).1, (call S p).2) := rfl

set_option maxRecDepth 2000 in
theorem sound : arena.Sound := by decide

/-- What both planners come to. -/
theorem served_spec : (call opened (.new true)).1 ≠ .error .outOfFuel ∧
    ((planWithin catalog .standard 9 ty ⟨served.shared, .new true⟩).1 = .ok converter ∧
      (planWithin catalog .standard 9 ty ⟨served.shared, .new true⟩).2 =
        (call served (.new true)).2) ∧
    (call served (.new true)).2.planner.fixpoints = ⟨[(ty, body)]⟩ ∧
    (call served (.new true)).2.shared.arena = arena := by
  decide +kernel

theorem comes_served : Session.Comes catalog .standard served := by
  refine .calls (p := .new true) (.joins true (.joins true (.opens sound ?_)))
    rfl ?_ (call_eq opened (.new true)) served_spec.1
  · decide
  · decide

theorem planWithin_served : planWithin catalog .standard 9 ty ⟨served.shared, .new true⟩ =
    (.ok converter, (call served (.new true)).2) := by
  obtain ⟨-, ⟨result, state⟩, -⟩ := served_spec
  rw [← result, ← state, Prod.mk.eta]

theorem fixpoints_served : (call served (.new true)).2.planner.fixpoints = ⟨[(ty, body)]⟩ :=
  served_spec.2.2.1

theorem arena_served : (call served (.new true)).2.shared.arena = arena := served_spec.2.2.2

end Tree

/-- The second planner, which is served from the cache. -/
theorem Session.Comes.transparent_tree :
    ∃ n, ∀ depth ≥ n, ∃ r' s',
      (Call.type Tree.ty).run Tree.catalog .standard depth (blank Tree.arena) = (r', s') ∧
        SameOutcome (Tree.call Tree.served (.new true)).1
          (Tree.call Tree.served (.new true)).2.planner.fixpoints r' s'.planner.fixpoints := by
  have arena : (Tree.call Tree.served (.new true)).2.shared.arena = Tree.arena := by decide +kernel
  refine Session.Comes.transparent Tree.comes_served (i := 1) (p := .new true)
    ?_ ?_ (Tree.call_eq Tree.served (.new true)) ?_ Tree.sound ?_
  · decide +kernel
  · decide +kernel
  · decide +kernel
  · exact arena ▸ .refl _

end Marshal
