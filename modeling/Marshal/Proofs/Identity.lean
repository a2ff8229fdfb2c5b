import Marshal.Proofs.Sessions

/-!
# When nothing has to be converted

The planner finds out by guessing which types cross unchanged. What it finds is
what the graph of types says: a type crosses unchanged exactly if no type that
converts by itself can be reached from it (`Session.Comes.identity_iff`). A
recursive type that does convert defers to its fixpoint body, which is there.
-/

namespace Marshal

open Converter Planner PlanM World

variable {catalog : Catalog} {options : Options} {S : Session} {p : Planner} {d i : Nat}
  {ty : TyId} {c : Converter} {s : PlanState}

/-- A converter that is planned is canonical, and the bodies that it defers to are
there. -/
theorem Session.Comes.planned (hS : Comes catalog options S) (hp : S.planners[i]? = some p)
    (hx : S.shared.arena.Has ty)
    (hrun : planWithin catalog options d ty ⟨S.shared, p⟩ = (.ok c, s)) {b : Arena} (hb : b.Sound)
    (hsb : s.shared.arena.Within b) :
    World.Good ⟨catalog, options, b⟩ ty ∧ World.Canon ⟨catalog, options, b⟩ ty c.content ∧
      World.Calm ⟨catalog, options, b⟩ p.caching s.memory ∧
      ∀ u ∈ (bare c.content).targets, s.memory.bodies u ≠ none := by
  have hrun := run_type hrun
  have hx' : ∀ x ∈ (Call.type ty).types, S.shared.arena.Has x := by simpa [Call.types] using hx
  obtain ⟨begins, hw, hpm⟩ := hS.begins hp hx' hrun hb hsb
  obtain ⟨hm, -, ⟨f, hj, -⟩ | ⟨job, out, hj, hplans, told⟩⟩ :=
    World.Calm.called begins hw hpm hrun (by simp) hsb
  · cases hj
  cases hj
  cases out with
  | error f => cases told
  | ok result =>
      obtain ⟨cs, U⟩ := result
      obtain ⟨_, ⟨⟩, _, ⟨rfl⟩, rfl⟩ := told
      have asked : Calm.Asked (.visit ty) := trivial
      obtain ⟨-, hcanon⟩ := hpm.result fair_eq asked hplans
      cases hcanon with
      | cons hc _ =>
          exact ⟨hc.1, hc.2, hm, hpm.covered fair_eq asked hplans _ (List.mem_singleton_self _)⟩

/-- A type crosses unchanged exactly if no type that converts by itself is reached
from it. A recursive one crosses unchanged or defers to its body. -/
theorem Session.Comes.identity_iff (hS : Comes catalog options S) (hp : S.planners[i]? = some p)
    (hx : S.shared.arena.Has ty)
    (hrun : planWithin catalog options d ty ⟨S.shared, p⟩ = (.ok c, s)) {b : Arena} (hb : b.Sound)
    (hsb : s.shared.arena.Within b) :
    (c = .identity ↔ ¬∃ y t, World.Reach ⟨catalog, options, b⟩ ty y ∧ b.term? y = some t ∧
      t.Intrinsic options) ∧
      ∀ r, catalog.Resolves b ty (.ok r) → r.recursive = true →
        c = .identity ∨ (∃ stamp, c = .custom stamp (.recurse ty .forward) (.recurse ty .backward)) ∧
          s.planner.fixpoints.contains ty = true := by
  obtain ⟨-, hcanon, -, hbodies⟩ := hS.planned hp hx hrun hb hsb
  have identity : c = .identity ↔ c.content = none := by cases c <;> simp [content]
  refine ⟨identity.trans hcanon.eq_none_iff, fun r hr hrec => ?_⟩
  rcases hcanon.reference_inv hr with ⟨hn, -⟩ | ⟨-, -, ⟨hnone, -⟩ | ⟨hsome, -⟩⟩
  · rw [hrec] at hn
    cases hn
  · exact .inl (identity.mpr hnone)
  · refine .inr ⟨?_, (FixTable.contains_iff _).mpr (hbodies ty ?_)⟩
    · cases c with
      | identity => cases hsome
      | custom stamp f b => cases hsome; exact ⟨stamp, rfl⟩
    · rw [hsome]
      exact mem_targets_deferring.mpr rfl

/-- Trees are records, which the standard options carry in two ways, so trees defer to
their body. -/
theorem Session.Comes.identity_iff_tree :
    (Tree.converter = .identity ↔
      ¬∃ y t, World.Reach ⟨Tree.catalog, .standard, Tree.arena⟩ Tree.ty y ∧
        Tree.arena.term? y = some t ∧ t.Intrinsic .standard) ∧
      ∀ r, Tree.catalog.Resolves Tree.arena Tree.ty (.ok r) → r.recursive = true →
        Tree.converter = .identity ∨ (∃ stamp, Tree.converter =
          .custom stamp (.recurse Tree.ty .forward) (.recurse Tree.ty .backward)) ∧
          (Tree.call Tree.served (.new true)).2.planner.fixpoints.contains Tree.ty = true := by
  have ends : planWithin Tree.catalog .standard 9 Tree.ty ⟨Tree.served.shared, .new true⟩ =
      (.ok Tree.converter, (Tree.call Tree.served (.new true)).2) :=
    Prod.ext (by decide +kernel) (by decide +kernel)
  have arena : (Tree.call Tree.served (.new true)).2.shared.arena = Tree.arena := by decide +kernel
  refine Session.Comes.identity_iff Tree.comes_served (i := 1) (p := .new true) ?_ ?_ ends
    Tree.sound ?_
  · decide +kernel
  · decide +kernel
  · exact arena ▸ .refl _

end Marshal
