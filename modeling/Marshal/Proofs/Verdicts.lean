import Marshal.Proofs.Ending

/-!
# Checking a default

Before the shim may fill in a literal, the planner checks that it is a host value of the
parameter's type. The check looks behind references, and through what is nullable; it
keeps no account of where it has been. What it comes to is a `Verdict`, by the type that
stands behind the last nullable one.

There is one as long as the check does not come back to a type on its way
(`World.Good.judges_iff`). That a planner accepts the type is not enough: a type that is
declared as a nullable of itself is planned, as its occurrence inside is converted when it
is met, but a check goes round in it however deep it may go
(`Session.Comes.checks_end`).
-/

namespace Marshal

open Relation Converter Planner PlanM

theorem mapError_inj {α : Type} {r r' : Except Fault α}
    (h : r.mapError Halt.fault = r'.mapError Halt.fault) : r = r' := by
  cases r <;> cases r' <;> cases h <;> rfl

namespace World

variable {w : World} {x y z : TyId} {t u : Term} {c : Assembly.Content} {lit : Literal} {d : Nat}
  {r : Except Fault Unit}

/-! ## What stands behind a type -/

/-- The term behind a type, references resolved. -/
inductive Behind (w : World) (x : TyId) : Term → Prop
  | own {t : Term} : w.arena.term? x = some t → t.isReference = false → Behind w x t
  | node {r : Referent} {t : Term} : w.Resolves x (.ok r) → w.arena.term? r.node = some t →
      Behind w x t

theorem Behind.unique (h : w.Behind x t) (h' : w.Behind x u) : t = u := by
  cases h with
  | own ht hn =>
      cases h' with
      | own hu => exact Option.some.inj (ht.symm.trans hu)
      | node hr =>
          rw [hr.isReference ht] at hn
          cases hn
  | node hr ht =>
      cases h' with
      | own hu hn =>
          rw [hr.isReference hu] at hn
          cases hn
      | node hr' hu =>
          cases hr.unique hr'
          exact Option.some.inj (ht.symm.trans hu)

theorem Canon.term? (h : w.Canon x c) : ∃ t, w.arena.term? x = some t := by
  cases h with
  | leaf ht | layer ht => exact ⟨_, ht⟩
  | inline hr => exact (Edge.node hr).term?
  | idle hx | deferring hx =>
      obtain ⟨r, hr, -⟩ := hx
      exact (Edge.node hr).term?

/-- Behind a type that can be planned there is a term, and looking for it adds nothing. -/
theorem Good.behind (hx : w.Good x) :
    ∃ t, w.Behind x t ∧ w.Answers (resolvedTerm w.catalog x) (.ok (some t)) := by
  obtain ⟨c, hc⟩ := hx.fine.canon
  obtain ⟨t, ht⟩ := hc.term?
  by_cases href : ∃ key args, t = .named key args
  · obtain ⟨key, args, rfl⟩ := href
    obtain ⟨r, hr⟩ := hc.resolves ht rfl
    obtain ⟨_, hnode⟩ := (hx.edge (.node hr)).fine.canon
    obtain ⟨u, hu⟩ := hnode.term?
    refine ⟨u, .node hr hu, ?_⟩
    rintro ⟨⟨a, supply, cache⟩, p⟩ rfl
    have resolved : resolve w.catalog x ⟨⟨w.arena, supply, cache⟩, p⟩ =
        (.ok r, ⟨⟨w.arena, supply, cache⟩, p⟩) := by
      show ((w.catalog.resolve x w.arena).1.mapError Halt.fault,
        (⟨⟨(w.catalog.resolve x w.arena).2, supply, cache⟩, p⟩ : PlanState)) = _
      rw [show w.catalog.resolve x w.arena = _ from hr]
      rfl
    rw [resolvedTerm_named ht, bind_ok resolved, bind_ok (arena_run _)]
    exact congrArg (fun u => (Except.ok u, _)) hu
  · have unnamed : ∀ key args, t ≠ .named key args := fun key args h => href ⟨key, args, h⟩
    refine ⟨t, .own ht ?_, fun s hs => ?_⟩
    · cases t with
      | named key args => exact absurd rfl (unnamed key args)
      | _ => rfl
    · have here : s.shared.arena.term? x = some t := hs ▸ ht
      rw [resolvedTerm_unnamed fun key args h => unnamed key args
        (Option.some.inj (here.symm.trans h)), here]

/-! ## What the check comes to -/

/-- The check goes on from the first type to the second. -/
def Unwraps (w : World) (x y : TyId) : Prop := w.Behind x (.nullable y)

theorem Unwraps.reach (h : w.Unwraps x y) : w.Reach x y := by
  cases h with
  | own ht => exact .single (.child ht rfl (List.mem_singleton_self y))
  | node hr ht => exact .head (.node hr) (.single (.child ht rfl (List.mem_singleton_self y)))

theorem Unwraps.has (h : w.Unwraps x y) : w.arena.Has x := by
  cases h with
  | own ht => exact Arena.has_of_term? ht
  | node hr => exact Arena.has_of_term? (Edge.node hr).term?.choose_spec

/-- The answer at a type that is not nullable. -/
def verdict (w : World) (lit : Literal) (x : TyId) (t : Term) : Except Fault Unit :=
  if fits w.options t lit then .ok ()
  else .error (.unsupported (w.arena.text x) (notHostValue lit))

/-- What the check of a literal comes to. -/
inductive Judges (w : World) (lit : Literal) : TyId → Except Fault Unit → Prop
  | last {x : TyId} {t : Term} : w.Behind x t → (∀ y, t ≠ .nullable y) →
      Judges w lit x (w.verdict lit x t)
  | inner {x y : TyId} {r : Except Fault Unit} : w.Unwraps x y → Judges w lit y r →
      Judges w lit x r

/-- Looking for the term behind a type adds nothing, so the check goes on from there. -/
theorem Good.answers_term (hx : w.Good x) (ht : w.Behind x t) :
    w.Answers (resolvedTerm w.catalog x) (.ok (some t)) := by
  obtain ⟨u, hu, hanswers⟩ := hx.behind
  rwa [ht.unique hu]

theorem Good.check_inner (hx : w.Good x) (hxy : w.Unwraps x y) {s : PlanState}
    (hs : s.shared.arena = w.arena) : acceptDefault w.catalog w.options (d + 1) x lit s =
      acceptDefault w.catalog w.options d y lit s := by
  rw [acceptDefault, bind_ok (hx.answers_term hxy s hs)]

theorem Good.check_last (hx : w.Good x) (ht : w.Behind x t) (hlast : ∀ y, t ≠ .nullable y) :
    w.Answers (acceptDefault w.catalog w.options (d + 1) x lit)
      ((w.verdict lit x t).mapError .fault) := by
  intro s hs
  rw [acceptDefault, bind_ok (hx.answers_term ht s hs), verdict, ← hs]
  cases t with
  | nullable y => exact absurd rfl (hlast y)
  | _ =>
      dsimp only
      split <;> rfl

/-- What is judged is answered, if the check may go deep enough. -/
theorem Judges.answers (h : w.Judges lit x r) : w.Good x →
    ∃ n, ∀ d ≥ n, w.Answers (acceptDefault w.catalog w.options d x lit) (r.mapError .fault) := by
  induction h with
  | last ht hlast =>
      intro hx
      refine ⟨1, fun d hd => ?_⟩
      obtain ⟨d, rfl⟩ := Nat.exists_eq_add_of_le' hd
      exact hx.check_last ht hlast
  | inner hxy _ ih =>
      intro hx
      obtain ⟨n, hn⟩ := ih (hx.reach hxy.reach)
      refine ⟨n + 1, fun d hd s hs => ?_⟩
      obtain ⟨d, rfl⟩ := Nat.exists_eq_add_of_le' hd
      rw [← Nat.add_assoc, hx.check_inner hxy hs]
      exact hn _ (Nat.le_add_left n d) s hs

/-- What is answered at some depth is judged. -/
theorem Good.judged : ∀ {d : Nat} {x : TyId}, w.Good x →
    w.Answers (acceptDefault w.catalog w.options d x lit) (r.mapError .fault) → w.Judges lit x r
  | 0, x, _, h => by
      have spent := h.unique (fun _ _ => rfl : w.Answers _ (.error .outOfFuel))
      cases r <;> cases spent
  | d + 1, x, hx, h => by
      obtain ⟨t, ht, -⟩ := hx.behind
      by_cases hlast : ∀ y, t ≠ .nullable y
      · have same := mapError_inj (h.unique (hx.check_last ht hlast))
        exact same ▸ .last ht hlast
      · push Not at hlast
        obtain ⟨y, rfl⟩ := hlast
        refine .inner ht (Good.judged (d := d) (hx.reach (Unwraps.reach ht)) fun s hs => ?_)
        rw [← hx.check_inner ht hs]
        exact h s hs

/-! ## Where the check ends -/

theorem Judges.acyclic (h : w.Judges lit x r) :
    ∀ y, ReflTransGen w.Unwraps x y → ¬TransGen w.Unwraps y y := by
  induction h with
  | last ht hlast =>
      intro y hxy hyy
      have stuck : ∀ z, ¬w.Unwraps _ z := fun z hz => hlast z (ht.unique hz)
      rcases hxy.cases_head with rfl | ⟨z, hz, -⟩
      · obtain ⟨z, hz, -⟩ := TransGen.head'_iff.mp hyy
        exact stuck z hz
      · exact stuck z hz
  | inner hxz _ ih =>
      intro y hxy hyy
      rcases hxy.cases_head with rfl | ⟨z, hz, hzy⟩
      · -- A cycle through the first type is one through the second.
        obtain ⟨z, hz, hback⟩ := TransGen.head'_iff.mp hyy
        cases hxz.unique hz
        exact ih _ .refl (.tail' hback hz)
      · cases hxz.unique hz
        exact ih y hzy hyy

/-- The check of a literal comes to an end exactly if no type on its way leads back to
itself. -/
theorem Good.judges_iff (hx : w.Good x) (lit : Literal) :
    (∃ r, w.Judges lit x r) ↔ ∀ y, ReflTransGen w.Unwraps x y → ¬TransGen w.Unwraps y y := by
  constructor
  · rintro ⟨r, h⟩
    exact h.acyclic
  · intro acyclic
    have ends := Arena.acc_of_acyclic (fun _ _ h => Unwraps.has h) acyclic
    clear acyclic
    induction ends with
    | intro x _ ih =>
      obtain ⟨t, ht, -⟩ := hx.behind
      by_cases hlast : ∀ y, t ≠ .nullable y
      · exact ⟨_, .last ht hlast⟩
      · push Not at hlast
        obtain ⟨y, rfl⟩ := hlast
        obtain ⟨r, hr⟩ := ih y ht (hx.reach (Unwraps.reach ht))
        exact ⟨r, .inner ht hr⟩

/-- Without an end the check goes as deep as it may. -/
theorem Good.endless : ∀ {d : Nat} {x : TyId}, w.Good x → (∀ r, ¬w.Judges lit x r) →
    w.Answers (acceptDefault w.catalog w.options d x lit) (.error .outOfFuel)
  | 0, _, _, _ => fun _ _ => rfl
  | d + 1, x, hx, hnone => by
      obtain ⟨t, ht, -⟩ := hx.behind
      by_cases hlast : ∀ y, t ≠ .nullable y
      · exact absurd (.last ht hlast) (hnone _)
      · push Not at hlast
        obtain ⟨y, rfl⟩ := hlast
        intro s hs
        rw [hx.check_inner ht hs]
        exact Good.endless (hx.reach (Unwraps.reach ht)) (fun r hr => hnone r (.inner ht hr)) s hs

end World

/-! ## What a session plans -/

section Sessions

variable {catalog : Catalog} {options : Options} {S : Session} {p : Planner} {n i : Nat}
  {ty : TyId} {c : Converter} {s : PlanState}

/-- For a type that a planner has accepted, the check of a default ends, in every later
state, exactly if no type on its way leads back to itself through references and what is
nullable. Otherwise it never does. -/
theorem Session.Comes.checks_end (hS : Comes catalog options S) (hp : S.planners[i]? = some p)
    (hx : S.shared.arena.Has ty)
    (hrun : planWithin catalog options n ty ⟨S.shared, p⟩ = (.ok c, s)) {b : Arena} (hb : b.Sound)
    (hsb : s.shared.arena.Within b) (lit : Literal) :
    ((∃ r : Except Fault Unit, ∃ n, ∀ depth ≥ n,
        Answers b (acceptDefault catalog options depth ty lit) (r.mapError .fault)) ↔
      ∀ y, ReflTransGen (World.Unwraps ⟨catalog, options, b⟩) ty y →
        ¬TransGen (World.Unwraps ⟨catalog, options, b⟩) y y) ∧
    ((∃ y, ReflTransGen (World.Unwraps ⟨catalog, options, b⟩) ty y ∧
        TransGen (World.Unwraps ⟨catalog, options, b⟩) y y) →
      ∀ depth, Answers b (acceptDefault catalog options depth ty lit) (.error .outOfFuel)) := by
  obtain ⟨hgood, -⟩ := hS.planned hp hx hrun hb hsb
  have ends := hgood.judges_iff lit
  refine ⟨?_, fun ⟨y, hy, hyy⟩ depth => ?_⟩
  · rw [← ends]
    constructor
    · rintro ⟨r, n, h⟩
      exact ⟨r, hgood.judged (h n (Nat.le_refl n))⟩
    · rintro ⟨r, h⟩
      exact ⟨r, h.answers hgood⟩
  · exact hgood.endless fun r hr => ends.mp ⟨r, hr⟩ y hy hyy

end Sessions

/-! ## A type that is a nullable of itself -/

namespace Onion

def key : Key := ⟨"M", "onion"⟩

def arena : Arena := (Arena.new.push (.named key [])).push (.nullable ⟨5⟩)

def ty : TyId := ⟨5⟩

/-- `onion` is `nullable<onion>`. -/
def catalog : Catalog := .ofDecls arena [⟨key, 0, ⟨6⟩⟩]

def opened : Session := ⟨⟨arena, 0, .empty⟩, [.new false]⟩

/-- A planner is asked for the type. -/
def call : Except Halt Converter × PlanState :=
  planWithin catalog .standard 9 ty ⟨opened.shared, .new false⟩

theorem comes_opened : Session.Comes catalog .standard opened :=
  .joins false (.opens (by decide) (by decide))

/-- It accepts the type. -/
theorem call_spec : call.1 = .ok (.custom 1 (.recurse ty .forward) (.recurse ty .backward)) ∧
    call.2.shared.arena = arena := by
  decide +kernel

theorem unwraps_self : World.Unwraps ⟨catalog, .standard, arena⟩ ty ty := by
  refine .node (r := ⟨key, ⟨6⟩, true, true⟩) ?_ rfl
  show @Eq (Except Fault Referent × Arena) _ _
  decide +kernel

end Onion

/-- A default for it is checked without end. -/
theorem Session.Comes.checks_end_onion :
    (¬∃ r : Except Fault Unit, ∃ n, ∀ depth ≥ n, Answers Onion.arena
      (acceptDefault Onion.catalog .standard depth Onion.ty (.int 3)) (r.mapError .fault)) ∧
    ∀ depth, Answers Onion.arena
      (acceptDefault Onion.catalog .standard depth Onion.ty (.int 3)) (.error .outOfFuel) := by
  obtain ⟨result, arena⟩ := Onion.call_spec
  have later : Onion.call.2.shared.arena.Within Onion.arena := arena ▸ .refl _
  obtain ⟨ends, endless⟩ := Session.Comes.checks_end Onion.comes_opened (i := 0) (p := .new false)
    rfl (by decide) (Prod.ext result rfl) (by decide) later (.int 3)
  have round := TransGen.single Onion.unwraps_self
  exact ⟨fun h => ends.mp h Onion.ty .refl round, endless ⟨Onion.ty, .refl, round⟩⟩

end Marshal
