import Mathlib.Data.List.Forall2
import Mathlib.Tactic.Push
import Marshal.Proofs.Graph

/-!
# Canonical contents

What the converter of a type is, said without a planner: `Canon` follows the type
and, at a recursive reference, asks the graph whether anything that can be
reached has to be converted. A reference to which the answer is yes defers to its
fixpoint body, one to which it is no crosses unchanged. There are no guesses, no
order and no memory in this definition; the planner is later shown to compute it.

A type is `Good` when everything that it reaches has a canonical content and
contains itself nowhere directly. Those are the types that can be planned.
-/

namespace Marshal

open Relation Converter

namespace Planner.Part

/-- What a part contributes: absence passes by what may be left out. -/
def wrap (p : Part) (content : Assembly.Content) : Assembly.Content :=
  if p.omittable then content.map fun (f, b) => (.mapOption f, .mapOption b) else content

@[simp] theorem wrap_eq_none {p : Part} {content : Assembly.Content} :
    p.wrap content = none ↔ content = none := by
  unfold wrap
  split <;> simp

theorem bare_wrap (p : Part) (content : Assembly.Content) : bare (p.wrap content) = bare content ∨
    bare (p.wrap content) = bare ((bare content).wrapped .mapOption) := by
  unfold wrap
  split
  · exact .inr (by rw [wrapped, content_bare])
  · exact .inl rfl

theorem wrap_has {P : Step → Prop} {cells : Prop} (hP : Step.Marks P cells) {p : Part}
    {content : Assembly.Content} : (bare (p.wrap content)).Has P ↔ (bare content).Has P := by
  have option (s : Step) : (Step.mapOption s).Has P ↔ s.Has P := by
    rw [hP.has rfl rfl, Step.children]
    simp
  unfold wrap
  split
  · cases content with
    | none => rfl
    | some c => rw [Option.map_some, has_bare, has_bare, option, option]
  · rfl

@[simp] theorem wrap_targets {p : Part} {content : Assembly.Content} {u : TyId} :
    u ∈ (bare (p.wrap content)).targets ↔ u ∈ (bare content).targets := by
  rw [mem_targets, mem_targets, wrap_has (Step.marks_target u)]

end Planner.Part

namespace World

open Planner Assembly

variable (w : World)

/-- The checks of a part end in `r`, however deep they may go from some depth on. -/
def Admits (p : Part) (r : Except Halt Unit) : Prop :=
  ∃ n, ∀ d ≥ n, w.Answers (p.check w.catalog w.options d) r

/-- The layer puts together `content` from the contents of its parts. -/
def Assembles (l : Layer) (cs : List Content) (r : Except Halt Content) : Prop :=
  w.Answers (l.assemble ((List.zipWith Part.wrap l.parts cs).map bare)) r

/-- The content of the converter of a type. -/
inductive Canon : TyId → Content → Prop
  | leaf {x : TyId} {t : Term} : w.arena.term? x = some t → t.isLeaf = true → Canon x none
  | layer {x : TyId} {t : Term} {l : Layer} {cs : TyId → Content} {content : Content} :
      w.arena.term? x = some t → w.layer? x t = some l → w.Answers l.before (.ok ()) →
      (∀ p ∈ l.parts, w.Admits p (.ok ())) → (∀ p ∈ l.parts, Canon p.ty (cs p.ty)) →
      w.Assembles l (l.parts.map fun p => cs p.ty) (.ok content) → Canon x content
  | inline {x : TyId} {r : Referent} {content : Content} : w.Resolves x (.ok r) →
      r.recursive = false → Canon r.node content → Canon x content
  | idle {x : TyId} : w.Recursive x → ¬w.Converts x → Canon x none
  | deferring {x : TyId} : w.Recursive x → w.Converts x → Canon x (deferring x)

/-- The type can be planned as far as its own layer goes. -/
structure Fine (x : TyId) : Prop where
  canon : ∃ content, w.Canon x content
  grounded : w.Grounded x

/-- The type can be planned. -/
def Good (x : TyId) : Prop := ∀ y, w.Reach x y → w.Fine y

/-- What a recursive type's body converts. -/
def Body (x : TyId) (content : Content) : Prop :=
  ∃ r, w.Resolves x (.ok r) ∧ w.Canon r.node content

variable {w} {x y u : TyId} {c d : Content}

theorem Admits.unique {p : Part} {r r' : Except Halt Unit} (h : w.Admits p r)
    (h' : w.Admits p r') : r = r' := by
  obtain ⟨n, h⟩ := h
  obtain ⟨m, h'⟩ := h'
  exact (h (max n m) (Nat.le_max_left n m)).unique (h' (max n m) (Nat.le_max_right n m))

theorem Good.fine (h : w.Good x) : w.Fine x := h x .refl

theorem Good.reach (h : w.Good x) (hxy : w.Reach x y) : w.Good y :=
  fun z hz => h z (hxy.trans hz)

theorem Good.edge (h : w.Good x) (hxy : w.Edge x y) : w.Good y := h.reach (.single hxy)

/-! ## What kind of type it is -/

theorem not_isReference_of_leaf {t : Term} (h : t.isLeaf = true) : t.isReference = false := by
  cases t <;> first | rfl | cases h

theorem layer?_of_leaf {t : Term} (h : t.isLeaf = true) : w.layer? x t = none := by
  cases t <;> first | rfl | cases h

theorem children_of_leaf {t : Term} (h : t.isLeaf = true) : t.children = [] := by
  cases t <;> first | rfl | cases h

theorem Recursive.isReference (h : w.Recursive x) {t : Term} (ht : w.arena.term? x = some t) :
    t.isReference = true := by
  obtain ⟨r, hr, -⟩ := h
  exact hr.isReference ht

/-- A type is a leaf, composite or a reference. -/
theorem leaf_or_layer_or_reference (x : TyId) (t : Term) :
    t.isLeaf = true ∨ (∃ l, w.layer? x t = some l) ∨ t.isReference = true := by
  cases t with
  | scalar | var | opaqueTy => exact .inl rfl
  | named => exact .inr (.inr rfl)
  | function sig =>
      refine .inr (.inl ?_)
      cases hs : Convention.ofSignature sig <;> simp [layer?, Planner.layer, hs]
  | _ => exact .inr (.inl ⟨_, rfl⟩)

/-! ## There is one canonical content -/

/-- The parts' contents, wrapped. -/
theorem zipWith_wrap (ps : List Part) (cs : TyId → Content) :
    List.zipWith Part.wrap ps (ps.map fun p => cs p.ty) = ps.map fun p => p.wrap (cs p.ty) := by
  simp [List.zipWith_map_right, List.zipWith_self]

theorem Canon.leaf_inv {t : Term} (h : w.Canon x c) (ht : w.arena.term? x = some t)
    (hl : t.isLeaf = true) : c = none := by
  cases h with
  | leaf => rfl
  | layer ht' hl' =>
      cases ht.symm.trans ht'
      rw [layer?_of_leaf hl] at hl'
      cases hl'
  | inline hr => have := hr.isReference ht; rw [not_isReference_of_leaf hl] at this; cases this
  | idle hr => rfl
  | deferring hr => have := hr.isReference ht; rw [not_isReference_of_leaf hl] at this; cases this

theorem Canon.layer_inv {t : Term} {l : Layer} (h : w.Canon x c)
    (ht : w.arena.term? x = some t) (hl : w.layer? x t = some l) :
    w.Answers l.before (.ok ()) ∧ (∀ p ∈ l.parts, w.Admits p (.ok ())) ∧
      ∃ cs : TyId → Content, (∀ p ∈ l.parts, w.Canon p.ty (cs p.ty)) ∧
        w.Assembles l (l.parts.map fun p => cs p.ty) (.ok c) := by
  have noReference : t.isReference ≠ true := by rw [isReference_of_layer hl]; simp
  cases h with
  | leaf ht' hleaf =>
      cases ht.symm.trans ht'
      rw [layer?_of_leaf hleaf] at hl
      cases hl
  | layer ht' hl' hb ha hc hcs =>
      cases ht.symm.trans ht'
      cases hl.symm.trans hl'
      exact ⟨hb, ha, _, hc, hcs⟩
  | inline hr => exact absurd (hr.isReference ht) noReference
  | idle hr => exact absurd (hr.isReference ht) noReference
  | deferring hr => exact absurd (hr.isReference ht) noReference

theorem Canon.reference_inv {r : Referent} (h : w.Canon x c) (hr : w.Resolves x (.ok r)) :
    r.recursive = false ∧ w.Canon r.node c ∨
      r.recursive = true ∧ r.regular = true ∧
        (c = none ∧ ¬w.Converts x ∨ c = Planner.deferring x ∧ w.Converts x) := by
  cases h with
  | leaf ht hl =>
      have := hr.isReference ht
      rw [not_isReference_of_leaf hl] at this
      cases this
  | layer ht hl =>
      have := hr.isReference ht
      rw [isReference_of_layer hl] at this
      cases this
  | inline hr' hn hc => cases hr.unique hr'; exact .inl ⟨hn, hc⟩
  | idle h hn =>
      obtain ⟨r', hr', h₁, h₂⟩ := h
      cases hr.unique hr'
      exact .inr ⟨h₁, h₂, .inl ⟨rfl, hn⟩⟩
  | deferring h hn =>
      obtain ⟨r', hr', h₁, h₂⟩ := h
      cases hr.unique hr'
      exact .inr ⟨h₁, h₂, .inr ⟨rfl, hn⟩⟩

/-- A reference with a canonical content resolves. -/
theorem Canon.resolves (h : w.Canon x c) {t : Term}
    (ht : w.arena.term? x = some t) (href : t.isReference = true) : ∃ r, w.Resolves x (.ok r) := by
  cases h with
  | leaf ht' hl =>
      cases ht.symm.trans ht'
      rw [not_isReference_of_leaf hl] at href
      cases href
  | layer ht' hl =>
      cases ht.symm.trans ht'
      rw [isReference_of_layer hl] at href
      cases href
  | inline hr => exact ⟨_, hr⟩
  | idle hx | deferring hx => exact ⟨_, hx.choose_spec.1⟩

theorem Canon.unique (h : w.Canon x c) : ∀ {d}, w.Canon x d → c = d := by
  induction h with
  | leaf ht hl => exact fun h => (h.leaf_inv ht hl).symm
  | @layer x t l cs content ht hl hb ha hc hcs ih =>
      intro d h
      obtain ⟨-, -, ds, hd, hds⟩ := h.layer_inv ht hl
      have same : (l.parts.map fun p => cs p.ty) = l.parts.map fun p => ds p.ty :=
        List.map_congr_left fun p hp => ih p hp (hd p hp)
      rw [same] at hcs
      cases hcs.unique hds
      rfl
  | inline hr hn hc ih =>
      intro d h
      rcases h.reference_inv hr with ⟨-, h⟩ | ⟨h, -⟩
      · exact ih h
      · rw [hn] at h; cases h
  | idle hx hn =>
      intro d h
      obtain ⟨r, hr, hrec, -⟩ := hx
      rcases h.reference_inv hr with ⟨h, -⟩ | ⟨-, -, ⟨rfl, -⟩ | ⟨-, hc⟩⟩
      · rw [hrec] at h; cases h
      · rfl
      · exact absurd hc hn
  | deferring hx hc =>
      intro d h
      obtain ⟨r, hr, hrec, -⟩ := hx
      rcases h.reference_inv hr with ⟨h, -⟩ | ⟨-, -, ⟨-, hn⟩ | ⟨rfl, -⟩⟩
      · rw [hrec] at h; cases h
      · exact absurd hc hn
      · rfl

theorem Body.unique (h : w.Body x c) (h' : w.Body x d) : c = d := by
  obtain ⟨r, hr, h⟩ := h
  obtain ⟨r', hr', h'⟩ := h'
  cases hr.unique hr'
  exact h.unique h'

open Classical in
/-- A layer's content is canonical when those of its parts are. -/
theorem Canon.of_parts {t : Term} {l : Layer} {cs : List Content} (ht : w.arena.term? x = some t)
    (hl : w.layer? x t = some l) (hb : w.Answers l.before (.ok ()))
    (ha : ∀ p ∈ l.parts, w.Admits p (.ok ()))
    (hc : List.Forall₂ (fun p c => w.Canon p.ty c) l.parts cs)
    (hcs : w.Assembles l cs (.ok c)) : w.Canon x c := by
  let f : TyId → Content := fun y => if h : ∃ c, w.Canon y c then h.choose else none
  have eq {y : TyId} {c : Content} (h : w.Canon y c) : f y = c := by
    have some : ∃ c, w.Canon y c := ⟨c, h⟩
    simp only [f, dif_pos some]
    exact some.choose_spec.unique h
  have all {ps : List Part} {cs : List Content}
      (h : List.Forall₂ (fun p c => w.Canon p.ty c) ps cs) :
      (ps.map fun p => f p.ty) = cs := by
    induction h with
    | nil => rfl
    | cons h _ ih => rw [List.map_cons, eq h, ih]
  have hf := all hc
  refine .layer ht hl hb ha (fun p hp => ?_) (hf ▸ hcs)
  rw [← hf, List.forall₂_map_right_iff, List.forall₂_same] at hc
  exact hc p hp

/-! ## Converting -/

/-- What converts is a type that converts by itself, or leads to one. -/
theorem converts_iff {t : Term} (ht : w.arena.term? x = some t) :
    w.Converts x ↔ t.Intrinsic w.options ∨ ∃ y, w.Edge x y ∧ w.Converts y := by
  constructor
  · rintro ⟨y, u, hxy, hu, hi⟩
    rcases ReflTransGen.cases_head hxy with rfl | ⟨z, e, h⟩
    · cases ht.symm.trans hu
      exact .inl hi
    · exact .inr ⟨z, e, y, u, h, hu, hi⟩
  · rintro (h | ⟨y, e, h⟩)
    · exact ⟨x, t, .refl, ht, h⟩
    · exact h.of_reach (.single e)

theorem Edge.term? (e : w.Edge x y) : ∃ t, w.arena.term? x = some t := by
  cases e with
  | child ht _ _ => exact ⟨_, ht⟩
  | node hr =>
      cases ht : w.arena.term? x with
      | some t => exact ⟨t, rfl⟩
      | none => cases (Catalog.resolve_unnamed (by simp [ht])).symm.trans hr

/-- A leaf leads to nothing. -/
theorem not_edge_of_leaf {t : Term} (ht : w.arena.term? x = some t) (hl : t.isLeaf = true) :
    ¬w.Edge x y := by
  intro e
  cases e with
  | child ht' _ hy =>
      cases ht.symm.trans ht'
      rw [children_of_leaf hl] at hy
      cases hy
  | node hr =>
      have := hr.isReference ht
      rw [not_isReference_of_leaf hl] at this
      cases this

theorem reference_not_intrinsic {t : Term} (h : t.isReference = true) :
    ¬t.Intrinsic w.options := by
  cases t <;> first | exact fun h => h | cases h

theorem converts_node {r : Referent} (hr : w.Resolves x (.ok r)) :
    w.Converts x ↔ w.Converts r.node := by
  obtain ⟨t, ht⟩ := (Edge.node hr).term?
  rw [converts_iff ht]
  constructor
  · rintro (h | ⟨y, e, h⟩)
    · exact absurd h (reference_not_intrinsic (hr.isReference ht))
    · exact (edge_iff_node hr).mp e ▸ h
  · exact fun h => .inr ⟨_, .node hr, h⟩

theorem not_converts_of_leaf {t : Term} (ht : w.arena.term? x = some t) (hl : t.isLeaf = true) :
    ¬w.Converts x := by
  rw [converts_iff ht]
  rintro (h | ⟨y, e, -⟩)
  · cases t <;> first | exact h | cases hl
  · exact not_edge_of_leaf ht hl e

/-- The converters of a layer's parts are as many as its parts. -/
theorem length_wrapped {l : Layer} {cs : List Content} (h : cs.length = l.parts.length) :
    ((List.zipWith Part.wrap l.parts cs).map bare).length = l.parts.length := by
  simp [h]

theorem mem_wrapped {ps : List Part} {cs : List Content} (h : cs.length = ps.length)
    {P : Content → Prop} (hP : ∀ (p : Part) (c : Content), P (p.wrap c) ↔ P c) :
    (∃ c ∈ List.zipWith Part.wrap ps cs, P c) ↔ ∃ c ∈ cs, P c := by
  induction ps generalizing cs with
  | nil => cases List.length_eq_zero_iff.mp h; simp
  | cons p ps ih =>
      cases cs with
      | nil => cases h
      | cons c cs => simp [hP, ih (by simpa using h)]

/-- A layer converts nothing if its type does not convert by itself and none of
its parts converts anything. -/
theorem Assembles.eq_none_iff {t : Term} {l : Layer} {cs : List Content}
    (hl : w.layer? x t = some l) (hlen : cs.length = l.parts.length)
    (h : w.Assembles l cs (.ok c)) :
    c = none ↔ ¬t.Intrinsic w.options ∧ ∀ c ∈ cs, c = none := by
  rw [assemble_eq_none hl (length_wrapped hlen) (h (PlanM.blank w.arena) rfl)]
  refine and_congr_right fun _ => ?_
  rw [← not_iff_not]
  push Not
  rw [← mem_wrapped hlen (P := fun c => c ≠ none) (by simp)]
  simp only [List.mem_map, exists_exists_and_eq_and, content_bare]

/-- A layer has what its parts have, and it makes a new cell if it is a cell whose contents
are converted. -/
theorem Assembles.has {P : Step → Prop} {cells : Prop} (hP : Step.Marks P cells) {t : Term}
    {l : Layer} {cs : List Content} (hl : w.layer? x t = some l)
    (hlen : cs.length = l.parts.length) (h : w.Assembles l cs (.ok c)) :
    (bare c).Has P ↔ (∃ c ∈ cs, (bare c).Has P) ∨
      cells ∧ (∃ contents, t = .ref contents) ∧ ∃ c ∈ cs, c ≠ none := by
  rw [assemble_has hP hl (length_wrapped hlen) (h (PlanM.blank w.arena) rfl),
    ← mem_wrapped hlen (P := fun c => (bare c).Has P) (fun _ _ => Part.wrap_has hP),
    ← mem_wrapped hlen (P := fun c => c ≠ none) (by simp)]
  simp only [List.mem_map, exists_exists_and_eq_and, content_bare]

/-- A layer defers to what its parts defer to. -/
theorem Assembles.targets {t : Term} {l : Layer} {cs : List Content}
    (hl : w.layer? x t = some l) (hlen : cs.length = l.parts.length)
    (h : w.Assembles l cs (.ok c)) :
    u ∈ (bare c).targets ↔ ∃ c ∈ cs, u ∈ (bare c).targets := by
  simp only [mem_targets, h.has (Step.marks_target u) hl hlen, false_and, or_false]

/-- The canonical content is identity exactly where nothing that converts by
itself is reached. -/
theorem Canon.eq_none_iff (h : w.Canon x c) : c = none ↔ ¬w.Converts x := by
  induction h with
  | leaf ht hl => exact iff_of_true rfl (not_converts_of_leaf ht hl)
  | @layer x t l cs content ht hl hb ha hc hcs ih =>
      rw [hcs.eq_none_iff hl (by simp), converts_iff ht, not_or]
      refine and_congr_right fun _ => ?_
      simp only [edge_iff_part ht hl hb, List.forall_mem_map]
      constructor
      · rintro h ⟨_, ⟨p, hp, rfl⟩, hy⟩
        exact (ih p hp).mp (h p hp) hy
      · exact fun h p hp => (ih p hp).mpr fun hy => h ⟨_, ⟨p, hp, rfl⟩, hy⟩
  | inline hr hn hc ih => rw [ih, converts_node hr]
  | idle hx hn => exact iff_of_true rfl hn
  | deferring hx hc => exact iff_of_false (by simp [Planner.deferring]) (not_not.mpr hc)

@[simp] theorem mem_targets_deferring {t : TyId} :
    u ∈ (bare (Planner.deferring t)).targets ↔ u = t := by
  rw [Planner.deferring, mem_targets, has_bare, Step.has_iff, Step.has_iff]
  simp [Step.target?, Step.children, eq_comm]

/-- A canonical content defers to recursive types that are reached and convert. -/
theorem Canon.targets (h : w.Canon x c) (hu : u ∈ (bare c).targets) :
    w.Reach x u ∧ w.Recursive u ∧ w.Converts u := by
  induction h with
  | leaf | idle => simp at hu
  | @layer x t l cs content ht hl hb ha hc hcs ih =>
      rw [hcs.targets hl (by simp)] at hu
      obtain ⟨_, hmem, hu⟩ := hu
      obtain ⟨p, hp, rfl⟩ := List.mem_map.mp hmem
      obtain ⟨h, rest⟩ := ih p hp hu
      exact ⟨.head (.part ht hl hp) h, rest⟩
  | inline hr hn hc ih =>
      obtain ⟨h, rest⟩ := ih hu
      exact ⟨.head (.node hr) h, rest⟩
  | deferring hx hc =>
      cases mem_targets_deferring.mp hu
      exact ⟨.refl, hx, hc⟩

end World

end Marshal
