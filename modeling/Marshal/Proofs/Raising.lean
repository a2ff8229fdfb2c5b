import Marshal.Proofs.Conduct

/-!
# Where a fault is raised

A fault is raised in some state in the midst of planning, and in that state the path of the
planner is all the places that were entered on the way and not left again. `Raises` finds the
state: it follows the program, past work that succeeds and into the work that does not, and
enters what the program enters. It says nothing about what is noted, and it knows nothing of
types.

What is noted is another matter, since a fault is noted only after the innermost place has
seen it, on the way out. That both agree (`Raises.noted`) is shown once for the combinators.
That every halt of planning was raised somewhere (`Traced`) goes function by function, and
needs no invariant. With it comes that work which succeeds leaves path and noted fault as
they were, without which the path after it would not be the way in.
-/

namespace Marshal

open Planner PlanM

/-- Work between the states has left every place that it entered, and has noted no fault. -/
structure PlanState.SamePlace (s t : PlanState) : Prop where
  path : t.planner.path = s.planner.path
  faultPath : t.planner.faultPath = s.planner.faultPath

namespace PlanState.SamePlace

variable {s t u : PlanState}

theorem refl (s : PlanState) : s.SamePlace s := ⟨rfl, rfl⟩

theorem trans (h : s.SamePlace t) (h' : t.SamePlace u) : s.SamePlace u :=
  ⟨h'.path.trans h.path, h'.faultPath.trans h.faultPath⟩

theorem noting (h : s.SamePlace t) (way : List Segment) :
    t.planner.noting way = s.planner.noting way :=
  noting_congr h.path h.faultPath way

end PlanState.SamePlace

namespace PlanM

/-- Work that is begun in `s` halts, and what halts it is raised in `u`. -/
inductive Raises : {α : Type} → PlanM α → PlanState → Halt → PlanState → Prop
  | thrown {α : Type} {s : PlanState} {h : Halt} : Raises (throw h : PlanM α) s h s
  | arena {α : Type} {x : ArenaM α} {s : PlanState} {a : Arena} {f : Fault} :
      x s.shared.arena = (.error f, a) → Raises (onArena x) s (.fault f) s
  | first {α β : Type} {x : PlanM α} {g : α → PlanM β} {s u : PlanState} {h : Halt} :
      Raises x s h u → Raises (x >>= g) s h u
  | next {α β : Type} {x : PlanM α} {g : α → PlanM β} {s t u : PlanState} {v : α} {h : Halt} :
      x s = (.ok v, t) → s.SamePlace t → Raises (g v) t h u → Raises (x >>= g) s h u
  | place {α : Type} {x : PlanM α} {s u : PlanState} {h : Halt} (place : Segment) :
      Raises x (s.planning (s.planner.push place)) h u → Raises (atPlace place x) s h u
  | lazily {α : Type} {x : PlanM α} {s u : PlanState} {h : Halt} :
      Raises x (s.planning s.planner.deeper) h u → Raises (onDemand x) s h u
  | opened {α : Type} {x : PlanM α} {s u : PlanState} {h : Halt} (ty : TyId) :
      Raises x (s.planning (s.planner.enter ty)) h u →
      Raises (bracket (fun p => p.enter ty) (fun p => p.leave ty) x) s h u
  | mindful {α : Type} {x : PlanM α} {s u : PlanState} {h : Halt} :
      Raises x s h u → Raises (dropUsesOnHalt x) s h u

variable {α β : Type} {x : PlanM α} {s u : PlanState} {h : Halt}

/-- What is raised halts the work. The way that is noted leads from the place where the work
was begun to the place where the halt was raised. -/
theorem Raises.noted (hraise : Raises x s h u) :
    ∃ t way, x s = (.error h, t) ∧ t.planner.path = s.planner.path ∧
      t.planner.faultPath = s.planner.noting way ∧
      u.planner.path.reverse = s.planner.path.reverse ++ way := by
  induction hraise with
  | @thrown α s h => exact ⟨s, [], rfl, rfl, noting_nil.symm, (List.append_nil _).symm⟩
  | @arena α x s a f hx =>
      refine ⟨⟨{ s.shared with arena := a }, s.planner⟩, [], ?_, rfl, noting_nil.symm,
        (List.append_nil _).symm⟩
      exact congrArg (fun r : _ × Arena => (r.1.mapError Halt.fault,
        (⟨{ s.shared with arena := r.2 }, s.planner⟩ : PlanState))) hx
  | first _ ih =>
      obtain ⟨t, way, hrun, rest⟩ := ih
      exact ⟨t, way, bind_error hrun, rest⟩
  | next hx same _ ih =>
      obtain ⟨t, way, hrun, hpath, hnoted, hu⟩ := ih
      refine ⟨t, way, (bind_ok hx).trans hrun, hpath.trans same.path, ?_, ?_⟩
      · rw [hnoted, same.noting]
      · rw [hu, same.path]
  | @place α x s u h place _ ih =>
      obtain ⟨t, way, hrun, hpath, hnoted, hu⟩ := ih
      refine ⟨t.planning t.planner.noteFault.pop, place :: way, ?_, ?_, ?_, ?_⟩
      · rw [atPlace_eq, hrun]
      · rw [noteFault_eq]
        exact congrArg List.tail hpath
      · rw [noteFault_eq]
        exact noting_push hpath hnoted
      · rw [hu]
        simp [PlanState.planning, Planner.push]
  | lazily _ ih =>
      obtain ⟨t, way, hrun, rest⟩ := ih
      refine ⟨t.planning t.planner.shallower, way, ?_, rest⟩
      rw [onDemand, bracket]
      exact congrArg (fun r : _ × PlanState => (r.1, r.2.planning r.2.planner.shallower)) hrun
  | opened ty _ ih =>
      obtain ⟨t, way, hrun, rest⟩ := ih
      refine ⟨t.planning (t.planner.leave ty), way, ?_, rest⟩
      rw [bracket]
      exact congrArg (fun r : _ × PlanState => (r.1, r.2.planning (r.2.planner.leave ty))) hrun
  | @mindful α x s u h _ ih =>
      obtain ⟨t, way, hrun, rest⟩ := ih
      exact ⟨t.planning (t.planner.truncateUses s.planner.uses.length), way,
        by rw [dropUsesOnHalt, hrun]; rfl, rest⟩

/-! ## Every halt was raised -/

/-- The work comes to a result at the place where it began, or what halts it was raised. -/
def Traced (x : PlanM α) : Prop :=
  ∀ s, (∃ v t, x s = (.ok v, t) ∧ s.SamePlace t) ∨ ∃ h t u, x s = (.error h, t) ∧ Raises x s h u

namespace Traced

/-- Work that never halts, and that enters no place. -/
theorem of_ok (h : ∀ s, ∃ v t, x s = (.ok v, t) ∧ s.SamePlace t) : Traced x := fun s => .inl (h s)

theorem of_raises (hraise : Raises x s h u) : ∃ h t u, x s = (.error h, t) ∧ Raises x s h u := by
  obtain ⟨t, _, hrun, -⟩ := hraise.noted
  exact ⟨h, t, u, hrun, hraise⟩

theorem pure (v : α) : Traced (Pure.pure v : PlanM α) := .of_ok fun s => ⟨v, s, rfl, .refl s⟩

theorem throw (h : Halt) : Traced (MonadExcept.throw h : PlanM α) := fun _ =>
  .inr (of_raises .thrown)

theorem fail (f : Fault) : Traced (PlanM.fail f : PlanM α) := .throw _

theorem getArena : Traced PlanM.arena := .of_ok fun s => ⟨_, s, rfl, .refl s⟩

theorem planner : Traced PlanM.planner := .of_ok fun s => ⟨_, s, rfl, .refl s⟩

theorem make (content : Assembly.Content) : Traced (PlanM.make content) :=
  .of_ok fun _ => ⟨_, _, rfl, rfl, rfl⟩

theorem onCache (f : Cache → α × Cache) : Traced (PlanM.onCache f) :=
  .of_ok fun _ => ⟨_, _, rfl, rfl, rfl⟩

theorem modifies {g : Planner → Planner}
    (h : ∀ p : Planner, (g p).path = p.path ∧ (g p).faultPath = p.faultPath) :
    Traced (modifyPlanner g) :=
  .of_ok fun s => ⟨_, s.planning (g s.planner), rfl, (h _).1, (h _).2⟩

theorem onArena (x : ArenaM α) : Traced (PlanM.onArena x) := fun s => by
  rcases hx : x s.shared.arena with ⟨f | v, a⟩
  · exact .inr (of_raises (.arena hx))
  · refine .inl ⟨v, ⟨{ s.shared with arena := a }, s.planner⟩, ?_, rfl, rfl⟩
    exact congrArg (fun r : _ × Arena => (r.1.mapError Halt.fault,
      (⟨{ s.shared with arena := r.2 }, s.planner⟩ : PlanState))) hx

theorem ofExcept (r : Except Fault α) : Traced (PlanM.ofExcept r) := by
  cases r with
  | ok v => exact .pure v
  | error f => exact .fail f

theorem bind {g : α → PlanM β} (hx : Traced x) (hg : ∀ v, Traced (g v)) : Traced (x >>= g) :=
  fun s => by
  rcases hx s with ⟨v, t, hrun, same⟩ | ⟨h, _, u, -, hraise⟩
  · rcases hg v t with ⟨w, t', hrun', same'⟩ | ⟨h, _, u, -, hraise⟩
    · exact .inl ⟨w, t', (bind_ok hrun).trans hrun', same.trans same'⟩
    · exact .inr (of_raises (.next hrun same hraise))
  · exact .inr (of_raises (.first hraise))

theorem mapM {g : β → PlanM α} (h : ∀ y, Traced (g y)) : ∀ ys : List β, Traced (ys.mapM g)
  | [] => by
      rw [List.mapM_nil]
      exact .pure _
  | y :: ys => by
      rw [List.mapM_cons]
      exact (h y).bind fun _ => (mapM h ys).bind fun _ => .pure _

theorem atPlace (place : Segment) (hx : Traced x) : Traced (PlanM.atPlace place x) := fun s => by
  rcases hx (s.planning (s.planner.push place)) with ⟨v, t, hrun, same⟩ | ⟨h, _, u, -, hraise⟩
  · refine .inl ⟨v, t.planning t.planner.pop, ?_, congrArg List.tail same.path, same.faultPath⟩
    rw [atPlace_eq, hrun]
  · exact .inr (of_raises (.place place hraise))

theorem onDemand (hx : Traced x) : Traced (PlanM.onDemand x) := fun s => by
  rcases hx (s.planning s.planner.deeper) with ⟨v, t, hrun, same⟩ | ⟨h, _, u, -, hraise⟩
  · refine .inl ⟨v, t.planning t.planner.shallower, ?_, same.path, same.faultPath⟩
    rw [PlanM.onDemand, bracket]
    exact congrArg (fun r : _ × PlanState => (r.1, r.2.planning r.2.planner.shallower)) hrun
  · exact .inr (of_raises (.lazily hraise))

theorem opened (ty : TyId) (hx : Traced x) :
    Traced (bracket (fun p => p.enter ty) (fun p => p.leave ty) x) := fun s => by
  rcases hx (s.planning (s.planner.enter ty)) with ⟨v, t, hrun, same⟩ | ⟨h, _, u, -, hraise⟩
  · refine .inl ⟨v, t.planning (t.planner.leave ty), ?_, same.path, same.faultPath⟩
    rw [bracket]
    exact congrArg (fun r : _ × PlanState => (r.1, r.2.planning (r.2.planner.leave ty))) hrun
  · exact .inr (of_raises (.opened ty hraise))

theorem dropUsesOnHalt (hx : Traced x) : Traced (PlanM.dropUsesOnHalt x) := fun s => by
  rcases hx s with ⟨v, t, hrun, same⟩ | ⟨h, _, u, -, hraise⟩
  · exact .inl ⟨v, t, by rw [PlanM.dropUsesOnHalt, hrun], same⟩
  · exact .inr (of_raises (.mindful hraise))

theorem shown (ty : TyId) : Traced (PlanM.shown ty) := getArena.bind fun _ => .pure _

theorem refuse (ty : TyId) (g : String → Fault) :
    Traced (do PlanM.fail (g (← PlanM.shown ty)) : PlanM α) :=
  (shown ty).bind fun _ => .fail _

end Traced

end PlanM

/-! ## Looking -/

namespace Planner

variable {catalog : Catalog} {options : Options} {depth : Nat} {rec : TyId → PlanM Converter}

section Recursion

variable (hrec : ∀ ty, Traced (rec ty))
include hrec

end Recursion

/-! ## Remembering -/

end Planner

end Marshal
