import Mathlib.Data.Fintype.Card
import Mathlib.Data.Fintype.EquivFin
import Mathlib.Data.Set.Basic
import Mathlib.Logic.Relation
import Marshal.Proofs.Inspection

/-!
# The graph of types

Types lead to types: a term to its parts, a reference to the node it resolves
to. A recursive type is a cycle of this graph. Planning walks the graph but stops
at types that are settled and at those that are open, so besides plain
reachability we need paths that stay outside a set of types (`Away`), and the
places where such paths are met (`Meets`).

The graph is that of one `World`, a catalog with options over an arena that holds
all instances in question. `Grows` compares the worlds of a growing arena.
-/

namespace Marshal

open Relation

/-- Steps from stored types come to an end where they never come back to one. -/
theorem Arena.acc_of_acyclic {a : Arena} {R : TyId → TyId → Prop} {x : TyId}
    (hR : ∀ y z, R y z → a.Has y) (hx : ∀ y, ReflTransGen R x y → ¬TransGen R y y) :
    Acc (fun z y => R y z) x := by
  let Found := {y : TyId // a.Has y ∧ ReflTransGen R x y}
  let below (y z : Found) : Prop := R z.1 y.1
  -- An id tells a stored type, so there are finitely many of them.
  have finite : Finite Found :=
    .of_injective (fun y => (⟨y.1.index, y.2.1⟩ : Fin a.size)) fun y z hyz =>
      Subtype.ext (congrArg TyId.mk (Fin.mk.inj hyz))
  have chain {y z : Found} (h : TransGen below y z) : TransGen R z.1 y.1 := by
    induction h with
    | single h => exact .single h
    | tail _ h ih => exact .head h ih
  have acyclic : Std.Irrefl (TransGen below) := ⟨fun y hy => hx y.1 y.2.2 (chain hy)⟩
  have wf : WellFounded (TransGen below) := Finite.wellFounded_of_trans_of_irrefl _
  have all (y : Found) : Acc (fun z y => R y z) y.1 := by
    induction y using wf.induction with
    | h y ih =>
      refine ⟨_, fun z hz => ?_⟩
      by_cases hhas : a.Has z
      · exact ih ⟨z, hhas, y.2.2.tail hz⟩ (.single hz)
      · exact ⟨_, fun u hu => absurd (hR z u hu) hhas⟩
  by_cases hhas : a.Has x
  · exact all ⟨x, hhas, .refl⟩
  · exact ⟨_, fun y hy => absurd (hR x y hy) hhas⟩

/-- What planning depends on beside the state of planners. -/
structure World where
  catalog : Catalog
  options : Options
  arena : Arena

namespace World

open Planner PlanM

/-- The arena is one that interning builds, and holds all declared bodies. -/
structure Ready (w : World) : Prop where
  sound : w.arena.Sound
  spans : w.catalog.Over w.arena

variable (w : World)

/-- The layer of a composite type. -/
def layer? (ty : TyId) (t : Term) : Option Layer := layer w.catalog w.options ty t

def Resolves (ty : TyId) (r : Except Fault Referent) : Prop :=
  w.catalog.Resolves w.arena ty r

/-- In this world the work gives `r` and changes nothing. -/
def Answers {α : Type} (m : PlanM α) (r : Except Halt α) : Prop := PlanM.Answers w.arena m r

/-! ## Reachability -/

/-- A type leads to the types of its parts, a reference to what it stands for. -/
inductive Edge : TyId → TyId → Prop
  | child {x y : TyId} {t : Term} : w.arena.term? x = some t → t.isReference = false →
      y ∈ t.children → Edge x y
  | node {x : TyId} {r : Referent} : w.Resolves x (.ok r) → Edge x r.node

def Reach : TyId → TyId → Prop := ReflTransGen w.Edge

/-- There is a type that is converted whatever its parts are. -/
def Converts (x : TyId) : Prop :=
  ∃ y t, w.Reach x y ∧ w.arena.term? y = some t ∧ t.Intrinsic w.options

/-- The type is a reference to a recursive declaration that a fixpoint can be
built for. -/
def Recursive (x : TyId) : Prop :=
  ∃ r, w.Resolves x (.ok r) ∧ r.recursive = true ∧ r.regular = true

/-- The type contains the other at the same depth of lazily converted
positions. -/
inductive Direct : TyId → TyId → Prop
  | part {x : TyId} {t : Term} {l : Layer} {p : Part} : w.arena.term? x = some t →
      w.layer? x t = some l → p ∈ l.parts → p.lazy = false → Direct x p.ty
  | node {x : TyId} {r : Referent} : w.Resolves x (.ok r) → Direct x r.node

/-- No chain of direct containment from the type goes on for ever. -/
def Grounded (x : TyId) : Prop := Acc (fun y x => w.Direct x y) x

variable {w}

theorem Converts.of_reach {x y : TyId} (hxy : w.Reach x y) (hy : w.Converts y) : w.Converts x := by
  obtain ⟨z, t, hz, ht⟩ := hy
  exact ⟨z, t, hxy.trans hz, ht⟩

/-! ## Paths outside a set -/

/-- A path from `x` to `y` with all nodes, the ends included, outside `N`. -/
inductive Away (w : World) (N : Set TyId) (x : TyId) : TyId → Prop
  | start : x ∉ N → Away w N x x
  | step {y z : TyId} : Away w N x y → w.Edge y z → z ∉ N → Away w N x z

/-- A path of nodes outside `P` leads up to `o`, which may be in `P`. -/
def Meets (w : World) (P : Set TyId) (x o : TyId) : Prop :=
  x = o ∨ ∃ z, w.Away P x z ∧ w.Edge z o

namespace Away

variable {N M : Set TyId} {x y z : TyId}

theorem reach (h : w.Away N x y) : w.Reach x y := by
  induction h with
  | start => exact .refl
  | step _ e _ ih => exact ih.tail e

theorem left (h : w.Away N x y) : x ∉ N := by
  induction h with
  | start hx => exact hx
  | step _ _ _ ih => exact ih

theorem right (h : w.Away N x y) : y ∉ N := by
  cases h with
  | start hx => exact hx
  | step _ _ hy => exact hy

theorem trans (h : w.Away N x y) (h' : w.Away N y z) : w.Away N x z := by
  induction h' with
  | start => exact h
  | step _ e hz ih => exact .step ih e hz

theorem cons (hx : x ∉ N) (e : w.Edge x y) (h : w.Away N y z) : w.Away N x z :=
  trans (.step (.start hx) e h.left) h

theorem anti (hNM : N ⊆ M) (h : w.Away M x y) : w.Away N x y := by
  induction h with
  | start hx => exact .start fun h => hx (hNM h)
  | step _ e hz ih => exact .step ih e fun h => hz (hNM h)

/-- A path is empty or takes a first step. -/
theorem cases_head (h : w.Away N x y) : x = y ∨ ∃ z, w.Edge x z ∧ w.Away N z y := by
  induction h with
  | start => exact .inl rfl
  | step _ e hz ih =>
      rcases ih with rfl | ⟨u, hu, h⟩
      · exact .inr ⟨_, e, .start hz⟩
      · exact .inr ⟨u, hu, .step h e hz⟩

/-- A path stays outside `M` as well, or there is a last node of `M` on it. -/
theorem last (M : Set TyId) (h : w.Away N x y) : w.Away (N ∪ M) x y ∨
    ∃ m ∈ M, w.Away N x m ∧ (m = y ∨ ∃ z, w.Edge m z ∧ w.Away (N ∪ M) z y) := by
  induction h with
  | start hx =>
      by_cases hm : x ∈ M
      · exact .inr ⟨x, hm, .start hx, .inl rfl⟩
      · exact .inl (.start fun h => h.elim hx hm)
  | @step y z h e hz ih =>
      by_cases hm : z ∈ M
      · exact .inr ⟨z, hm, .step h e hz, .inl rfl⟩
      have hz' : z ∉ N ∪ M := fun h => h.elim hz hm
      rcases ih with h | ⟨m, hmM, hxm, rfl | ⟨u, hu, h⟩⟩
      · exact .inl (.step h e hz')
      · exact .inr ⟨m, hmM, hxm, .inr ⟨z, e, .start hz'⟩⟩
      · exact .inr ⟨m, hmM, hxm, .inr ⟨u, hu, .step h e hz'⟩⟩

end Away

theorem away_empty {x y : TyId} : w.Away ∅ x y ↔ w.Reach x y := by
  refine ⟨Away.reach, fun h => ?_⟩
  induction h with
  | refl => exact .start (Set.notMem_empty _)
  | tail _ e ih => exact .step ih e (Set.notMem_empty _)

namespace Meets

variable {P Q : Set TyId} {x y o : TyId}

theorem refl (w : World) (P : Set TyId) (x : TyId) : w.Meets P x x := .inl rfl

theorem reach (h : w.Meets P x o) : w.Reach x o := by
  rcases h with rfl | ⟨z, h, e⟩
  · exact .refl
  · exact h.reach.tail e

theorem cons (hx : x ∉ P) (e : w.Edge x y) (h : w.Meets P y o) : w.Meets P x o := by
  rcases h with rfl | ⟨z, h, e'⟩
  · exact .inr ⟨x, .start hx, e⟩
  · exact .inr ⟨z, h.cons hx e, e'⟩

theorem of_away (h : w.Away P x y) (h' : w.Meets P y o) : w.Meets P x o := by
  rcases h' with rfl | ⟨z, h', e⟩
  · cases h with
    | start => exact refl w P _
    | step h e _ => exact .inr ⟨_, h, e⟩
  · exact .inr ⟨z, h.trans h', e⟩

theorem anti (hPQ : P ⊆ Q) (h : w.Meets Q x o) : w.Meets P x o := by
  rcases h with rfl | ⟨z, h, e⟩
  · exact refl w P _
  · exact .inr ⟨z, h.anti hPQ, e⟩

theorem cases_head (h : w.Meets P x o) :
    x = o ∨ x ∉ P ∧ ∃ y, w.Edge x y ∧ w.Meets P y o := by
  rcases h with rfl | ⟨z, h, e⟩
  · exact .inl rfl
  · refine .inr ⟨h.left, ?_⟩
    rcases h.cases_head with rfl | ⟨y, hy, h⟩
    · exact ⟨o, e, refl w P o⟩
    · exact ⟨y, hy, .inr ⟨z, h, e⟩⟩

end Meets

/-! ## References -/

theorem Resolves.unique {x : TyId} {r r' : Except Fault Referent} (h : w.Resolves x r)
    (h' : w.Resolves x r') : r = r' :=
  Catalog.Resolves.unique h h'

/-- Only a reference stands for something. -/
theorem Resolves.isReference {x : TyId} {r : Referent} (h : w.Resolves x (.ok r)) {t : Term}
    (ht : w.arena.term? x = some t) : t.isReference = true := by
  cases t with
  | named => rfl
  | _ => cases (Catalog.resolve_unnamed (by simp [ht])).symm.trans h

/-- A reference leads to what it stands for, and nowhere else. -/
theorem edge_iff_node {x y : TyId} {r : Referent} (h : w.Resolves x (.ok r)) :
    w.Edge x y ↔ y = r.node := by
  constructor
  · intro e
    cases e with
    | child ht hn _ => rw [h.isReference ht] at hn; cases hn
    | node h' => cases h.unique h'; rfl
  · rintro rfl
    exact .node h

/-! ## Parts and children -/

section Parts

variable {x : TyId} {t : Term} {l : Layer}

theorem ofElements_ty : ∀ (index : Nat) (tys : List TyId),
    (Part.ofElements index tys).map Part.ty = tys
  | _, [] => rfl
  | index, ty :: tys => by simp [Part.ofElements, ofElements_ty (index + 1) tys]

theorem ofParams_ty (convention : Convention) : ∀ (index : Nat) (ps : List Parameter),
    (Part.ofParams convention index ps).map Part.ty = ps.map Parameter.ty
  | _, [] => rfl
  | index, p :: ps => by
      simp [Part.ofParams, Part.ofParam, ofParams_ty convention (index + 1) ps]

/-- A layer has a part for each child, unless the type is refused at once. -/
theorem parts_ty (hl : w.layer? x t = some l) :
    l.parts.map Part.ty = t.children ∨ l.parts = [] ∧ ∃ f, l.before = fail f := by
  cases t with
  | scalar | var | opaqueTy | named => cases hl
  | record fields | object fields =>
      cases hl
      refine .inl ?_
      simp [Term.children, Part.ofField, Function.comp_def]
  | variant ks =>
      cases hl
      refine .inl ?_
      simp only [Term.children, List.map_filterMap]
      congr 1
      funext k
      cases hk : k.payload <;> simp [Part.ofConstructor, hk]
  | tuple tys => cases hl; exact .inl (ofElements_ty 0 tys)
  | array | option | nullable | ref => cases hl; exact .inl rfl
  | function sig =>
      rcases layer_function hl with ⟨f, -, rfl⟩ | ⟨_, -, rfl⟩
      · exact .inr ⟨rfl, f, rfl⟩
      · refine .inl ?_
        simp [Term.children, Part.ofSignature, ofParams_ty]

theorem isReference_of_layer (hl : w.layer? x t = some l) : t.isReference = false := by
  cases t with
  | named => cases hl
  | _ => rfl

theorem Edge.part (ht : w.arena.term? x = some t) (hl : w.layer? x t = some l) {p : Part}
    (hp : p ∈ l.parts) : w.Edge x p.ty := by
  refine .child ht (isReference_of_layer hl) ?_
  rcases parts_ty hl with h | ⟨h, -⟩
  · exact h ▸ List.mem_map_of_mem hp
  · rw [h] at hp; cases hp

/-- The edges of a composite type that is not refused are those to its parts. -/
theorem edge_iff_part (ht : w.arena.term? x = some t) (hl : w.layer? x t = some l)
    (hb : w.Answers l.before (.ok ())) {y : TyId} : w.Edge x y ↔ ∃ p ∈ l.parts, p.ty = y := by
  constructor
  · intro h
    cases h with
    | child ht' _ hy =>
        cases ht.symm.trans ht'
        rcases parts_ty hl with h | ⟨-, f, h⟩
        · exact List.mem_map.mp (h ▸ hy)
        · rw [h] at hb
          cases hb.unique (.fail f)
    | node hr =>
        have := isReference_of_layer hl
        rw [hr.isReference ht] at this
        cases this
  · rintro ⟨p, hp, rfl⟩
    exact .part ht hl hp

end Parts

end World

end Marshal
