import Marshal.Proofs.Conduct
import Marshal.Proofs.Sessions

/-!
# No body is missed

A planner that is served a converter from the cache takes over the bodies that it
needs, and it would have to fail if one had not been published. It never does. A
planner without a cache takes over nothing, so whatever it fails with, it is not
that (`alone`, a conduct that all of planning keeps). And what planners remember
cannot be seen, so what fails in no new planner without a cache fails in no planner
at all.
-/

namespace Marshal

open Planner PlanM

/-! ## Planning without a cache -/

/-- Without a cache, the work uses none, and does not fail for a body that was not published. -/
def alone : Conduct := fun s h t =>
  s.planner.caching = false → t.planner.caching = false ∧
    ∀ f, h = some (.fault f) → ¬f.Unpublished

theorem alone_blind : alone.Blind where
  peeks same plain hs :=
    ⟨(congrArg Planner.caching same.planner).trans hs, fun f hf => (plain f hf).1⟩
  seq hst htu hs := htu (hst hs).1
  scratch hp hq h hs := by
    obtain ⟨ht, hfaults⟩ := h (hp.caching.symm.trans hs)
    exact ⟨hq.caching.trans ht, hfaults⟩
  cyclic _ _ _ hs := ⟨hs, by rintro _ ⟨⟩; nofun⟩

namespace PlanM

variable {α : Type}

/-- What is done with a planner is done with one that does not cache. -/
theorem planner_bind_alone {g : Planner → PlanM α}
    (hg : ∀ p, p.caching = false → Obeys alone (g p)) : Obeys alone (planner >>= g) :=
  fun s hs => by
  rw [bind_run]
  exact hg s.planner hs s hs

end PlanM

namespace Planner

variable {catalog : Catalog} {options : Options} {depth : Nat} {rec : TyId → PlanM Converter}
  {ty : TyId}

theorem planLayer_alone (hrec : ∀ ty, Obeys alone (rec ty)) :
    Obeys alone (planLayer catalog options depth rec ty) := by
  have lawful := alone_blind.lawful
  have remembers (c : Converter) : Obeys alone (modifyPlanner fun p => p.remember ty c) :=
    fun _ hs => ⟨hs, nofun⟩
  have settle (c : Converter) : Obeys alone (settle ty c) := planner_bind_alone fun p hp => by
    rw [if_neg (by rw [hp]; exact Bool.false_ne_true)]
    exact .bind lawful (remembers c) fun _ => .of_peeks lawful (.pure _)
  have term : Obeys alone (forTerm catalog options depth rec ty) :=
    lawful.term hrec (alone_blind.reference hrec)
  have anew : Obeys alone (planAnew catalog options depth rec ty) := by
    refine planner_bind_alone fun p _ => ?_
    refine .bind lawful (alone_blind.dropsUsesOnHalt term) fun c => planner_bind_alone fun q _ => ?_
    split
    · exact .bind lawful (alone_blind.modifies fun _ => ⟨rfl, rfl⟩) fun _ => settle c
    · exact .bind lawful (alone_blind.modifies fun _ => ⟨rfl, rfl⟩) fun _ =>
        .of_peeks lawful (.pure _)
  refine planner_bind_alone fun p _ => ?_
  split
  · exact .of_peeks lawful (.pure _)
  · intro s hs
    have look : fromCache ty s = (.ok none, s) := by
      rw [fromCache, bind_ok (planner_run s), if_neg (by rw [hs]; exact Bool.false_ne_true)]
      rfl
    rw [bind_ok look]
    exact anew s hs

theorem planWithin_alone : ∀ (depth : Nat) (ty : TyId),
    Obeys alone (planWithin catalog options depth ty)
  | 0, _ => .of_peeks alone_blind.lawful .halted
  | depth + 1, _ => planLayer_alone (planWithin_alone depth)

end Planner

/-! ## In a session -/

/-- No call fails because a body was not published. -/
theorem Session.Comes.published {catalog : Catalog} {options : Options} {S : Session} {p : Planner}
    {call : Call} {d i : Nat} {f : Fault} {s : PlanState} (hS : Comes catalog options S)
    (hp : S.planners[i]? = some p) (hx : ∀ x ∈ call.types, S.shared.arena.Has x)
    (hrun : call.run catalog options d ⟨S.shared, p⟩ = (.error (.fault f), s)) :
    ¬f.Unpublished := by
  have sound := (rests_call (w := ⟨catalog, options, S.shared.arena⟩) hS.rests.sound
    (hS.rests.begins hp hx) hrun).1.sound
  obtain ⟨n, htransparent⟩ := hS.transparent hp hx hrun nofun sound (.refl _)
  obtain ⟨r, s', hrun', same⟩ := htransparent n le_rfl
  have all : Obeys alone (call.run catalog options n) :=
    alone_blind.lawful.call (planWithin_alone n) call
  have quiet := (all (blank s.shared.arena) rfl).2
  rw [hrun'] at quiet
  cases r with
  | ok a => cases same
  | error h => exact quiet f (congrArg _ (Eq.symm same))

end Marshal
