import Marshal.Proofs.Judgement

/-!
# What a result says

A result of planning may hang on guesses, and guesses may be wrong. `Speaks`
collects what a result says about its type all the same: under which guesses it is
canonical, what follows from it even if they are wrong, and which part of the
graph it has seen. `Plans.speaks` shows all of this together, as each part is needed
for the others: that the first turn of a recursive type gave identity makes its
guess right, and that makes the results below it canonical.

A result that hangs on no guess is canonical (`Speaks.good`), so memory holds
canonical contents of good types only (`Honest`).
-/

namespace Marshal

open Converter Relation

namespace World

open Planner Assembly

variable (w : World)

/-! ## Honest surroundings -/

/-- All entries are canonical contents of good types. -/
def Vouched (f : Contents) : Prop := ∀ x c, f x = some c → w.Good x ∧ w.Canon x c

/-- What is settled and what the cache holds is canonical. -/
structure Honest (m : Memory) : Prop where
  settled : w.Vouched m.settled
  cached : w.Vouched m.cache.converters

/-- A guess is identity, or defers to a type that indeed converts. -/
structure HonestEnv (e : Env) : Prop where
  guess : ∀ o ∈ e.stack, o.guess = none ∨ o.guess = deferring o.ty ∧ w.Converts o.ty
  recursive : ∀ o ∈ e.stack, w.Recursive o.ty
  depth : ∀ o ∈ e.stack, o.depth ≤ e.depth

/-- What is guessed of the open type is its canonical content. -/
def Right (e : Env) (o : TyId) : Prop := ∃ p, e.find? o = some p ∧ w.Canon o p.guess

/-- What the content `c` of `x`, which hangs on the guesses of `U`, says. -/
structure Speaks (e : Env) (x : TyId) (c : Content) (U : Set TyId) : Prop where
  /-- It is canonical if the guesses are right. -/
  canon : (∀ o ∈ U, w.Right e o) → w.Canon x c
  converts : c ≠ none → w.Converts x
  /-- Identity rests on guesses of identity, and nothing up to them converts. -/
  idle : c = none → (∀ o ∈ U, ∀ p, e.find? o = some p → p.guess = none) ∧
    ∀ y t, w.Away U x y → w.arena.term? y = some t → ¬t.Intrinsic w.options
  /-- All that was seen is fine if the guesses are right. -/
  fine : (∀ o ∈ U, w.Right e o ∧ w.Grounded o) → ∀ y, w.Away U x y → w.Fine y
  grounded : (∀ o ∈ U, ∀ p, e.find? o = some p → p.depth < e.depth → w.Grounded o) →
    w.Grounded x
  targets : ∀ u ∈ (bare c).targets, w.Reach x u ∧ w.Recursive u ∧ w.Converts u
  used : ∀ o ∈ U, o ∈ e.opened ∧ w.Reach x o

/-- What the contents of parts say, and that their checks passed. -/
inductive SpeaksAll (w : World) (e : Env) : List Part → List Content → Set TyId → Prop
  | nil : SpeaksAll w e [] [] ∅
  | cons {p : Part} {ps : List Part} {c : Content} {cs : List Content} {U V : Set TyId} :
      w.Admits p (.ok ()) → w.Speaks (e.inside p.lazy) p.ty c U → SpeaksAll w e ps cs V →
      SpeaksAll w e (p :: ps) (c :: cs) (U ∪ V)

def Says (e : Env) : Job → List Content → Set TyId → Prop
  | .visit x, [c], U | .layer x, [c], U => w.Speaks e x c U
  | .parts ps, cs, U => w.SpeaksAll e ps cs U
  | _, _, _ => False

variable {w} {e : Env} {x y : TyId} {c d : Content} {U V : Set TyId} {m m' : Memory}

/-! ## Results that hang on nothing -/

theorem Grounded.of_direct (h : ∀ y, w.Direct x y → w.Grounded y) : w.Grounded x := Acc.intro x h

/-- A canonical content of a good type says all that a result can say. -/
theorem Good.speaks (hx : w.Good x) (hc : w.Canon x c) (e : Env) : w.Speaks e x c ∅ where
  canon _ := hc
  converts hn := not_not.mp fun h => hn (hc.eq_none_iff.mpr h)
  idle hn := by
    refine ⟨fun o ho => absurd ho (Set.notMem_empty o), fun y t hy ht hi => ?_⟩
    exact hc.eq_none_iff.mp hn ⟨y, t, away_empty.mp hy, ht, hi⟩
  fine _ y hy := hx y (away_empty.mp hy)
  grounded _ := hx.fine.grounded
  targets _ hu := hc.targets hu
  used o ho := absurd ho (Set.notMem_empty o)

/-- A result that hangs on nothing is canonical, and its type is good. -/
theorem Speaks.good (h : w.Speaks e x c ∅) : w.Good x ∧ w.Canon x c := by
  refine ⟨fun y hy => h.fine ?_ y (away_empty.mpr hy), h.canon ?_⟩
  · exact fun o ho => absurd ho (Set.notMem_empty o)
  · exact fun o ho => absurd ho (Set.notMem_empty o)

theorem good_of_leaf {t : Term} (ht : w.arena.term? x = some t) (hl : t.isLeaf = true) :
    w.Good x := by
  have grounded : w.Grounded x := .of_direct fun y h => by
    cases h with
    | part ht' hlayer hp _ => exact absurd (.part ht' hlayer hp) (not_edge_of_leaf ht hl)
    | node hr => exact absurd (.node hr) (not_edge_of_leaf ht hl)
  intro y hy
  rcases ReflTransGen.cases_head hy with rfl | ⟨z, e, -⟩
  · exact ⟨⟨none, .leaf ht hl⟩, grounded⟩
  · exact absurd e (not_edge_of_leaf ht hl)

/-! ## Guesses -/

theorem Right.enter_of_ne {g : Content} {o : TyId} (ho : o ≠ x) :
    w.Right (e.enter x g) o ↔ w.Right e o := by
  rw [Right, Right, Env.enter_find?_of_ne ho]

theorem Right.enter_self {g : Content} : w.Right (e.enter x g) x ↔ w.Canon x g := by
  simp [Right]

/-- A guess says what it says if it is right. -/
theorem speaks_guess (he : w.HonestEnv e) {o : Open} (ho : e.find? x = some o)
    (hd : o.depth ≠ e.depth) : w.Speaks e x o.guess {x} where
  canon h := by
    obtain ⟨p, hp, hc⟩ := h x rfl
    cases ho.symm.trans hp
    exact hc
  converts hn := by
    rcases he.guess o (Env.find?_mem ho) with h | ⟨-, h⟩
    · exact absurd h hn
    · exact Env.find?_ty ho ▸ h
  idle hn := by
    refine ⟨?_, fun y t hy => absurd rfl hy.left⟩
    rintro _ rfl p hp
    cases ho.symm.trans hp
    exact hn
  fine _ y hy := absurd rfl hy.left
  grounded h := h x rfl o ho (lt_of_le_of_ne (he.depth o (Env.find?_mem ho)) hd)
  targets u hu := by
    rcases he.guess o (Env.find?_mem ho) with h | ⟨h, hconv⟩
    · rw [h] at hu
      cases hu
    · rw [h, mem_targets_deferring, Env.find?_ty ho] at hu
      subst hu
      have := he.recursive o (Env.find?_mem ho)
      rw [Env.find?_ty ho] at this hconv
      exact ⟨.refl, this, hconv⟩
  used := by
    rintro _ rfl
    exact ⟨Env.mem_opened.mpr ⟨o, ho⟩, .refl⟩

/-! ## References -/

section References

variable {r : Referent}

theorem direct_iff_node (hr : w.Resolves x (.ok r)) : w.Direct x y ↔ y = r.node := by
  constructor
  · intro h
    cases h with
    | part ht hl hp _ => exact (edge_iff_node hr).mp (.part ht hl hp)
    | node h' => cases hr.unique h'; rfl
  · rintro rfl
    exact .node hr

theorem Grounded.of_node (hr : w.Resolves x (.ok r)) (h : w.Grounded r.node) : w.Grounded x :=
  .of_direct fun _ hy => (direct_iff_node hr).mp hy ▸ h

/-- A path from a reference is empty, or goes on from its node. -/
theorem Away.cases_node (hr : w.Resolves x (.ok r)) (h : w.Away U x y) :
    x = y ∨ w.Away U r.node y := by
  rcases h.cases_head with h | ⟨z, e, h⟩
  · exact .inl h
  · exact .inr ((edge_iff_node hr).mp e ▸ h)

/-- A path from a reference that comes back to it goes on from its node after the
last time. -/
theorem Away.last_node (hr : w.Resolves x (.ok r)) (h : w.Away U x y) :
    x = y ∨ w.Away (U ∪ {x}) r.node y := by
  rcases h.last {x} with h | ⟨_, rfl, -, h | ⟨z, e, h⟩⟩
  · exact absurd (Or.inr rfl) h.left
  · exact .inl h
  · exact .inr ((edge_iff_node hr).mp e ▸ h)

theorem Resolves.not_intrinsic (hr : w.Resolves x (.ok r)) {t : Term}
    (ht : w.arena.term? x = some t) : ¬t.Intrinsic w.options :=
  reference_not_intrinsic (hr.isReference ht)

theorem Speaks.inline (hr : w.Resolves x (.ok r)) (hn : r.recursive = false)
    (h : w.Speaks e r.node c U) : w.Speaks e x c U where
  canon hU := .inline hr hn (h.canon hU)
  converts hc := (converts_node hr).mpr (h.converts hc)
  idle hc := by
    refine ⟨(h.idle hc).1, fun y t hy ht => ?_⟩
    rcases hy.cases_node hr with rfl | hy
    · exact hr.not_intrinsic ht
    · exact (h.idle hc).2 y t hy ht
  fine hU y hy := by
    rcases hy.cases_node hr with rfl | hy
    · refine ⟨⟨c, .inline hr hn (h.canon fun o ho => (hU o ho).1)⟩, ?_⟩
      exact .of_node hr (h.grounded fun o ho _ _ _ => (hU o ho).2)
    · exact h.fine hU y hy
  grounded hU := .of_node hr (h.grounded hU)
  targets u hu := ⟨.head (.node hr) (h.targets u hu).1, (h.targets u hu).2⟩
  used o ho := ⟨(h.used o ho).1, .head (.node hr) (h.used o ho).2⟩

variable (hr : w.Resolves x (.ok r)) (hrec : r.recursive = true) (hreg : r.regular = true)

include hr in
/-- If the first turn gives identity, and the other guesses are right, nothing is
converted: a type that converts would be met up to the guesses or behind one. -/
theorem Speaks.first_not_converts (h : w.Speaks (e.enter x none) r.node none U)
    (hU : ∀ o ∈ U \ {x}, w.Right e o) : ¬w.Converts x := by
  rw [converts_node hr]
  rintro ⟨y, t, hy, ht, hi⟩
  obtain ⟨guesses, seen⟩ := h.idle rfl
  rcases (away_empty.mpr hy).last U with hy | ⟨o, ho, -, rest⟩
  · exact seen y t (hy.anti Set.subset_union_right) ht hi
  by_cases hox : o = x
  · subst hox
    rcases rest with rfl | ⟨z, e, hy⟩
    · exact hr.not_intrinsic ht hi
    · cases (edge_iff_node hr).mp e
      exact seen y t (hy.anti Set.subset_union_right) ht hi
  · obtain ⟨p, hp, hc⟩ := hU o ⟨ho, hox⟩
    have := guesses o ho p (by rw [Env.enter_find?_of_ne hox, hp])
    refine hc.eq_none_iff.mp this ⟨y, t, ?_, ht, hi⟩
    rcases rest with rfl | ⟨z, e, hy⟩
    · exact .refl
    · exact .head e hy.reach

include hr hrec hreg in
theorem recursive_of_resolves : w.Recursive x := ⟨r, hr, hrec, hreg⟩

include hr hrec hreg in
/-- The first turn gave identity. -/
theorem Speaks.idle_turn (h : w.Speaks (e.enter x none) r.node none U) :
    w.Speaks e x none (U \ {x}) := by
  have covered : U ⊆ U \ {x} ∪ {x} := fun o ho => by
    by_cases hox : o = x
    · exact .inr hox
    · exact .inl ⟨ho, hox⟩
  have grounded (hU : ∀ o ∈ U \ {x}, ∀ p, e.find? o = some p → p.depth < e.depth → w.Grounded o) :
      w.Grounded x := by
    refine .of_node hr (h.grounded fun o ho p hp hlt => ?_)
    by_cases hox : o = x
    · subst hox
      rw [Env.enter_find?_self] at hp
      cases hp
      exact absurd hlt (lt_irrefl _)
    · rw [Env.enter_find?_of_ne hox] at hp
      exact hU o ⟨ho, hox⟩ p hp hlt
  have canon (hU : ∀ o ∈ U \ {x}, w.Right e o) : w.Canon x none :=
    .idle (recursive_of_resolves hr hrec hreg) (h.first_not_converts hr hU)
  refine ⟨canon, fun hn => absurd rfl hn, fun _ => ⟨fun o ho p hp => ?_, fun y t hy ht => ?_⟩,
    fun hU y hy => ?_, grounded, by simp, fun o ho => ?_⟩
  · exact (h.idle rfl).1 o ho.1 p (by rw [Env.enter_find?_of_ne ho.2, hp])
  · rcases hy.last_node hr with rfl | hy
    · exact hr.not_intrinsic ht
    · exact (h.idle rfl).2 y t (hy.anti covered) ht
  · have hcx := canon fun o ho => (hU o ho).1
    have hgx := grounded fun o ho _ _ _ => (hU o ho).2
    rcases hy.last_node hr with rfl | hy
    · exact ⟨⟨none, hcx⟩, hgx⟩
    · refine h.fine (fun o ho => ?_) y (hy.anti covered)
      by_cases hox : o = x
      · subst hox; exact ⟨Right.enter_self.mpr hcx, hgx⟩
      · exact ⟨(Right.enter_of_ne hox).mpr (hU o ⟨ho, hox⟩).1, (hU o ⟨ho, hox⟩).2⟩
  · obtain ⟨hopen, hreach⟩ := h.used o ho.1
    rw [Env.enter_opened] at hopen
    exact ⟨hopen.resolve_left ho.2, .head (.node hr) hreach⟩

include hr hrec hreg in
/-- The second turn was made with a guess that is right. -/
theorem Speaks.second_turn (h : w.Speaks (e.enter x none) r.node c U) (hc : c ≠ none)
    (h' : w.Speaks (e.enter x (deferring x)) r.node d V) :
    w.Speaks e x (deferring x) ((U ∪ V) \ {x}) := by
  have hconv : w.Converts x := (converts_node hr).mpr (h.converts hc)
  have hrecx := recursive_of_resolves hr hrec hreg
  have canon : w.Canon x (deferring x) := .deferring hrecx hconv
  have covered : V ⊆ (U ∪ V) \ {x} ∪ {x} := fun o ho => by
    by_cases hox : o = x
    · exact .inr hox
    · exact .inl ⟨.inr ho, hox⟩
  have grounded
      (hU : ∀ o ∈ (U ∪ V) \ {x}, ∀ p, e.find? o = some p → p.depth < e.depth → w.Grounded o) :
      w.Grounded x := by
    refine .of_node hr (h'.grounded fun o ho p hp hlt => ?_)
    by_cases hox : o = x
    · subst hox
      rw [Env.enter_find?_self] at hp
      cases hp
      exact absurd hlt (lt_irrefl _)
    · rw [Env.enter_find?_of_ne hox] at hp
      exact hU o ⟨.inr ho, hox⟩ p hp hlt
  refine ⟨fun _ => canon, fun _ => hconv, nofun, fun hU y hy => ?_, grounded,
    fun u hu => ?_, fun o ho => ?_⟩
  · have hgx := grounded fun o ho _ _ _ => (hU o ho).2
    rcases hy.last_node hr with rfl | hy
    · exact ⟨⟨_, canon⟩, hgx⟩
    · refine h'.fine (fun o ho => ?_) y (hy.anti covered)
      by_cases hox : o = x
      · subst hox; exact ⟨Right.enter_self.mpr canon, hgx⟩
      · have := hU o ⟨.inr ho, hox⟩
        exact ⟨(Right.enter_of_ne hox).mpr this.1, this.2⟩
  · cases mem_targets_deferring.mp hu
    exact ⟨.refl, hrecx, hconv⟩
  · obtain ⟨hopen, hreach⟩ : o ∈ insert x e.opened ∧ w.Reach r.node o := by
      rcases ho.1 with ho | ho
      · simpa using h.used o ho
      · simpa using h'.used o ho
    exact ⟨hopen.resolve_left ho.2, .head (.node hr) hreach⟩

end References

/-! ## Composite types -/

namespace SpeaksAll

variable {ps : List Part} {cs : List Content}

theorem length (h : w.SpeaksAll e ps cs U) : cs.length = ps.length := by
  induction h with
  | nil => rfl
  | cons _ _ _ ih => simp [ih]

theorem admits (h : w.SpeaksAll e ps cs U) : ∀ p ∈ ps, w.Admits p (.ok ()) := by
  induction h with
  | nil => simp
  | cons ha _ _ ih => simpa using ⟨ha, ih⟩

theorem canon (h : w.SpeaksAll e ps cs U) (hU : ∀ o ∈ U, w.Right e o) :
    List.Forall₂ (fun p c => w.Canon p.ty c) ps cs := by
  induction h with
  | nil => exact .nil
  | cons _ hp _ ih =>
      exact .cons (hp.canon fun o ho => hU o (.inl ho)) (ih fun o ho => hU o (.inr ho))

theorem converts (h : w.SpeaksAll e ps cs U) (hc : ∃ c ∈ cs, c ≠ none) :
    ∃ p ∈ ps, w.Converts p.ty := by
  induction h with
  | nil => simp at hc
  | @cons p ps _ _ _ _ _ hp _ ih =>
      obtain ⟨c, hc, hn⟩ := hc
      rcases List.mem_cons.mp hc with rfl | hc
      · exact ⟨p, List.mem_cons_self .., hp.converts hn⟩
      · obtain ⟨q, hq, h⟩ := ih ⟨c, hc, hn⟩
        exact ⟨q, List.mem_cons_of_mem _ hq, h⟩

theorem idle (h : w.SpeaksAll e ps cs U) (hc : ∀ c ∈ cs, c = none) :
    (∀ o ∈ U, ∀ p, e.find? o = some p → p.guess = none) ∧
      ∀ p ∈ ps, ∀ y t, w.Away U p.ty y → w.arena.term? y = some t → ¬t.Intrinsic w.options := by
  induction h with
  | nil => simp
  | cons _ hp _ ih =>
      obtain ⟨hg, hs⟩ := hp.idle (hc _ (List.mem_cons_self ..))
      obtain ⟨hg', hs'⟩ := ih fun c h => hc c (List.mem_cons_of_mem _ h)
      constructor
      · rintro o (ho | ho)
        · exact hg o ho
        · exact hg' o ho
      · intro q hq y t hy
        rcases List.mem_cons.mp hq with rfl | hq
        · exact hs y t (hy.anti Set.subset_union_left)
        · exact hs' q hq y t (hy.anti Set.subset_union_right)

theorem fine (h : w.SpeaksAll e ps cs U) (hU : ∀ o ∈ U, w.Right e o ∧ w.Grounded o) :
    ∀ p ∈ ps, ∀ y, w.Away U p.ty y → w.Fine y := by
  induction h with
  | nil => simp
  | cons _ hp _ ih =>
      intro q hq y hy
      rcases List.mem_cons.mp hq with rfl | hq
      · exact hp.fine (fun o ho => hU o (.inl ho)) y (hy.anti Set.subset_union_left)
      · exact ih (fun o ho => hU o (.inr ho)) q hq y (hy.anti Set.subset_union_right)

theorem grounded (h : w.SpeaksAll e ps cs U)
    (hU : ∀ o ∈ U, ∀ p, e.find? o = some p → p.depth < e.depth → w.Grounded o) :
    ∀ p ∈ ps, p.lazy = false → w.Grounded p.ty := by
  induction h with
  | nil => simp
  | cons _ hp _ ih =>
      intro q hq hlazy
      rcases List.mem_cons.mp hq with rfl | hq
      · refine hp.grounded fun o ho p h hlt => hU o (.inl ho) p h ?_
        simpa [Env.inside, hlazy] using hlt
      · exact ih (fun o ho => hU o (.inr ho)) q hq hlazy

theorem targets (h : w.SpeaksAll e ps cs U) {u : TyId} (hu : ∃ c ∈ cs, u ∈ (bare c).targets) :
    ∃ p ∈ ps, w.Reach p.ty u ∧ w.Recursive u ∧ w.Converts u := by
  induction h with
  | nil => simp at hu
  | @cons p ps _ _ _ _ _ hp _ ih =>
      obtain ⟨c, hc, hu⟩ := hu
      rcases List.mem_cons.mp hc with rfl | hc
      · exact ⟨p, List.mem_cons_self .., hp.targets u hu⟩
      · obtain ⟨q, hq, h⟩ := ih ⟨c, hc, hu⟩
        exact ⟨q, List.mem_cons_of_mem _ hq, h⟩

theorem used (h : w.SpeaksAll e ps cs U) {o : TyId} (ho : o ∈ U) :
    o ∈ e.opened ∧ ∃ p ∈ ps, w.Reach p.ty o := by
  induction h with
  | nil => exact absurd ho (Set.notMem_empty o)
  | @cons p ps _ _ _ _ _ hp _ ih =>
      rcases ho with ho | ho
      · exact ⟨(hp.used o ho).1, p, List.mem_cons_self .., (hp.used o ho).2⟩
      · obtain ⟨hopen, q, hq, h⟩ := ih ho
        exact ⟨hopen, q, List.mem_cons_of_mem _ hq, h⟩

/-- What is said of the parts is said of the type. -/
theorem assembled {t : Term} {l : Layer} (h : w.SpeaksAll e l.parts cs U)
    (ht : w.arena.term? x = some t) (hl : w.layer? x t = some l)
    (hb : w.Answers l.before (.ok ())) (hc : w.Assembles l cs (.ok c)) : w.Speaks e x c U := by
  have canon (hU : ∀ o ∈ U, w.Right e o) : w.Canon x c :=
    .of_parts ht hl hb h.admits (h.canon hU) hc
  have grounded (hU : ∀ o ∈ U, ∀ p, e.find? o = some p → p.depth < e.depth → w.Grounded o) :
      w.Grounded x := by
    refine .of_direct fun y hy => ?_
    cases hy with
    | part ht' hl' hp hlazy =>
        cases ht.symm.trans ht'
        cases hl.symm.trans hl'
        exact h.grounded hU _ hp hlazy
    | node hr =>
        have := hr.isReference ht
        rw [isReference_of_layer hl] at this
        cases this
  refine ⟨canon, fun hn => ?_, fun hn => ?_, fun hU y hy => ?_, grounded, fun u hu => ?_,
    fun o ho => ?_⟩
  · rw [converts_iff ht]
    by_cases hi : t.Intrinsic w.options
    · exact .inl hi
    · have some : ∃ c ∈ cs, c ≠ none := by
        by_contra hcs
        push Not at hcs
        exact hn ((hc.eq_none_iff hl h.length).mpr ⟨hi, hcs⟩)
      obtain ⟨p, hp, hconv⟩ := h.converts some
      exact .inr ⟨p.ty, .part ht hl hp, hconv⟩
  · obtain ⟨hi, hcs⟩ := (hc.eq_none_iff hl h.length).mp hn
    obtain ⟨guesses, seen⟩ := h.idle hcs
    refine ⟨guesses, fun y u hy hu => ?_⟩
    rcases hy.cases_head with rfl | ⟨z, e, hy⟩
    · cases ht.symm.trans hu
      exact hi
    · obtain ⟨p, hp, rfl⟩ := (edge_iff_part ht hl hb).mp e
      exact seen p hp y u hy hu
  · rcases hy.cases_head with rfl | ⟨z, e, hy⟩
    · exact ⟨⟨c, canon fun o ho => (hU o ho).1⟩, grounded fun o ho _ _ _ => (hU o ho).2⟩
    · obtain ⟨p, hp, rfl⟩ := (edge_iff_part ht hl hb).mp e
      exact h.fine hU p hp y hy
  · rw [hc.targets hl h.length] at hu
    obtain ⟨p, hp, hreach, rest⟩ := h.targets hu
    exact ⟨.head (.part ht hl hp) hreach, rest⟩
  · obtain ⟨hopen, p, hp, hreach⟩ := h.used ho
    exact ⟨hopen, .head (.part ht hl hp) hreach⟩

end SpeaksAll

/-! ## Memory stays honest -/

section Memory

variable {rivals : Stock → Stock → Prop}

/-- Other planners share canonical contents of good types only. -/
def Vouching (w : World) (rivals : Stock → Stock → Prop) : Prop :=
  ∀ k k', rivals k k' → w.Vouched k.converters → w.Vouched k'.converters

theorem Vouched.put {f : Contents} (hf : w.Vouched f) (hx : w.Good x) (hc : w.Canon x c) :
    w.Vouched (f.put x c) := by
  intro y d hy
  by_cases h : y = x
  · subst h
    rw [Contents.put_self] at hy
    cases hy
    exact ⟨hx, hc⟩
  · rw [Contents.put_of_ne h] at hy
    exact hf y d hy

/-- The entry that is kept is the canonical one, whoever made it. -/
theorem Vouched.getD {f : Contents} (hf : w.Vouched f) (hc : w.Canon x c) : (f x).getD c = c := by
  cases h : f x with
  | none => rfl
  | some d => exact (hf x d h).2.unique hc

theorem Vouched.keep {f : Contents} (hf : w.Vouched f) (hx : w.Good x) (hc : w.Canon x c) :
    w.Vouched (f.keep x c) := by
  have : f.keep x c = f.put x c := by
    funext y
    simp only [Contents.keep, Contents.put, hf.getD hc]
  exact this ▸ hf.put hx hc

theorem Takes.settled {stack : List TyId} {ok : Bool} (h : Takes rivals m stack m' ok) :
    m'.settled = m.settled := by
  induction h with
  | done | missing => rfl
  | skip _ _ ih => exact ih
  | take _ _ _ _ ih => exact ih

theorem Takes.vouched (hr : w.Vouching rivals) {stack : List TyId} {ok : Bool}
    (h : Takes rivals m stack m' ok) (hm : w.Vouched m.cache.converters) :
    w.Vouched m'.cache.converters := by
  induction h with
  | done => exact hm
  | skip _ _ ih => exact ih hm
  | take _ hk _ _ ih => exact ih (hr _ _ hk hm)
  | missing _ hk _ => exact hr _ _ hk hm

theorem Publishes.vouched (hr : w.Vouching rivals) {bodies : Contents} {k k' : Stock}
    {tys : List TyId} (h : Publishes rivals bodies k tys k') (hk : w.Vouched k.converters) :
    w.Vouched k'.converters := by
  induction h with
  | done => exact hk
  | skip _ _ ih => exact ih hk
  | @offer k k₁ _ _ _ _ _ hk₁ _ ih => exact ih (hr k k₁ hk₁ hk)

theorem Misses.honest (hr : w.Vouching rivals) (h : Misses rivals e m x m') (hm : w.Honest m) :
    w.Honest m' := by
  cases h with
  | alone => exact hm
  | shared _ hk _ => exact ⟨hm.settled, hr _ _ hk hm.cached⟩

/-- A canonical content is settled as it is. -/
theorem Settles.honest (hr : w.Vouching rivals) (h : Settles rivals e m x c d m')
    (hm : w.Honest m) (hx : w.Good x) (hc : w.Canon x c) : w.Honest m' ∧ d = c := by
  cases h with
  | alone => exact ⟨⟨hm.settled.put hx hc, hm.cached⟩, rfl⟩
  | shared _ _ hp hk =>
      have hk' := hr _ _ hk (hp.vouched hr hm.cached)
      have same := hk'.getD hc
      rw [same]
      exact ⟨⟨hm.settled.put hx hc, hk'.keep hx hc⟩, rfl⟩

theorem HonestEnv.inside (he : w.HonestEnv e) (l : Bool) : w.HonestEnv (e.inside l) :=
  ⟨he.guess, he.recursive,
    fun o ho => (he.depth o ho).trans (by simp [Env.inside]; split <;> omega)⟩

theorem HonestEnv.enter (he : w.HonestEnv e) {g : Content} (hx : w.Recursive x)
    (hg : g = none ∨ g = deferring x ∧ w.Converts x) : w.HonestEnv (e.enter x g) where
  guess o ho := by
    rcases List.mem_cons.mp ho with rfl | ho
    · exact hg
    · exact he.guess o ho
  recursive o ho := by
    rcases List.mem_cons.mp ho with rfl | ho
    · exact hx
    · exact he.recursive o ho
  depth o ho := by
    rcases List.mem_cons.mp ho with rfl | ho
    · exact le_refl _
    · exact he.depth o ho

/-- In the first turn of a recursive type the guess is identity. -/
theorem HonestEnv.first_turn (he : w.HonestEnv e) {r : Referent} (hr : w.Resolves x (.ok r))
    (hrec : r.recursive = true) (hreg : r.regular = true) : w.HonestEnv (e.enter x none) :=
  he.enter (recursive_of_resolves hr hrec hreg) (.inl rfl)

/-- In the second the guess defers, for the first turn has given something else. -/
theorem HonestEnv.second_turn (he : w.HonestEnv e) {r : Referent} (hr : w.Resolves x (.ok r))
    (hrec : r.recursive = true) (hreg : r.regular = true) {U : Set TyId}
    (h : w.Speaks (e.enter x none) r.node c U) (hc : c ≠ none) :
    w.HonestEnv (e.enter x (deferring x)) :=
  he.enter (recursive_of_resolves hr hrec hreg)
    (.inr ⟨rfl, (converts_node hr).mpr (h.converts hc)⟩)

/-- Whatever planning gives, it says what `Speaks` lists, and memory stays honest,
also after a fault. -/
theorem Plans.speaks (hr : w.Vouching rivals) {job : Job} {out : Verdict}
    (h : w.Plans rivals e job m out m') : w.HonestEnv e → w.Honest m →
      w.Honest m' ∧ ∀ cs U, out = .ok (cs, U) → w.Says e job cs U := by
  induction h with
  | remembered hs =>
      intro _ hm
      refine ⟨hm, ?_⟩
      rintro _ _ ⟨⟩
      obtain ⟨hx, hc⟩ := hm.settled _ _ hs
      exact hx.speaks hc _
  | adopted _ _ hk hs ht =>
      intro _ hm
      have hk' := hr _ _ hk hm.cached
      obtain ⟨hx, hc⟩ := hk' _ _ hs
      have hcached := ht.vouched hr (by exact hk')
      refine ⟨⟨?_, hcached⟩, ?_⟩
      · rw [Memory.remember_settled, ht.settled]
        exact hm.settled.put hx hc
      · rintro _ _ ⟨⟩
        exact hx.speaks hc _
  | bodyless _ _ hk _ ht =>
      intro _ hm
      refine ⟨⟨?_, ht.vouched hr (hr _ _ hk hm.cached)⟩, nofun⟩
      rw [ht.settled]
      exact hm.settled
  | settles _ hmiss _ hset ih =>
      intro he hm
      obtain ⟨hm', said⟩ := ih he (hmiss.honest hr hm)
      obtain ⟨hx, hc⟩ := (said _ _ rfl).good
      obtain ⟨hm'', rfl⟩ := hset.honest hr hm' hx hc
      refine ⟨hm'', ?_⟩
      rintro _ _ ⟨⟩
      exact hx.speaks hc _
  | hangs _ hmiss _ _ ih =>
      intro he hm
      obtain ⟨hm', said⟩ := ih he (hmiss.honest hr hm)
      refine ⟨hm', ?_⟩
      rintro _ _ ⟨⟩
      exact said _ _ rfl
  | fails _ hmiss _ ih =>
      intro he hm
      exact ⟨(ih he (hmiss.honest hr hm)).1, nofun⟩
  | inlineFails _ _ _ _ ih => exact fun he hm => ⟨(ih he hm).1, nofun⟩
  | leaf ht hl =>
      intro _ hm
      refine ⟨hm, ?_⟩
      rintro _ _ ⟨⟩
      exact (good_of_leaf ht hl).speaks (.leaf ht hl) _
  | refused | circles | unresolved | grows | partRefused => exact fun _ hm => ⟨hm, nofun⟩
  | partsFail _ _ _ _ ih | unassembled _ _ _ _ _ ih => exact fun he hm => ⟨(ih he hm).1, nofun⟩
  | assembled ht hl hb _ hc ih =>
      intro he hm
      obtain ⟨hm', said⟩ := ih he hm
      refine ⟨hm', ?_⟩
      rintro _ _ ⟨⟩
      exact SpeaksAll.assembled (said _ _ rfl) ht hl hb hc
  | guessed _ ho hd =>
      intro he hm
      refine ⟨hm, ?_⟩
      rintro _ _ ⟨⟩
      exact speaks_guess he ho hd
  | inline _ hres hn _ ih =>
      intro he hm
      obtain ⟨hm', said⟩ := ih he hm
      refine ⟨hm', fun cs U hout => ?_⟩
      have := said cs U hout
      cases cs with
      | nil => exact this.elim
      | cons c cs =>
          cases cs with
          | nil => exact Speaks.inline hres hn this
          | cons => exact this.elim
  | firstFails _ hres hrec hreg _ ih =>
      intro he hm
      exact ⟨(ih (he.first_turn hres hrec hreg) hm).1, nofun⟩
  | idle _ hres hrec hreg _ ih =>
      intro he hm
      obtain ⟨hm', said⟩ := ih (he.first_turn hres hrec hreg) hm
      refine ⟨hm', ?_⟩
      rintro _ _ ⟨⟩
      exact Speaks.idle_turn hres hrec hreg (said _ _ rfl)
  | secondFails _ hres hrec hreg _ hc _ ih ih' =>
      intro he hm
      obtain ⟨hm₁, said⟩ := ih (he.first_turn hres hrec hreg) hm
      exact ⟨(ih' (he.second_turn hres hrec hreg (said _ _ rfl) hc) hm₁).1, nofun⟩
  | defers _ hres hrec hreg _ hc _ ih ih' =>
      intro he hm
      obtain ⟨hm₁, said⟩ := ih (he.first_turn hres hrec hreg) hm
      obtain ⟨hm₂, said'⟩ := ih' (he.second_turn hres hrec hreg (said _ _ rfl) hc) hm₁
      refine ⟨⟨hm₂.settled, hm₂.cached⟩, ?_⟩
      rintro _ _ ⟨⟩
      exact Speaks.second_turn hres hrec hreg (said _ _ rfl) hc (said' _ _ rfl)
  | noParts =>
      intro _ hm
      refine ⟨hm, ?_⟩
      rintro _ _ ⟨⟩
      exact .nil
  | partFails _ _ ih => exact fun he hm => ⟨(ih (he.inside _) hm).1, nofun⟩
  | restFails _ _ _ ih ih' =>
      intro he hm
      exact ⟨(ih' he (ih (he.inside _) hm).1).1, nofun⟩
  | someParts ha _ _ ih ih' =>
      intro he hm
      obtain ⟨hm₁, said⟩ := ih (he.inside _) hm
      obtain ⟨hm₂, said'⟩ := ih' he hm₁
      refine ⟨hm₂, ?_⟩
      rintro _ _ ⟨⟩
      exact .cons ha (said _ _ rfl) (said' _ _ rfl)

end Memory

end World

end Marshal
