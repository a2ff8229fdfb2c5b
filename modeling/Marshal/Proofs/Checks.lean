import Marshal.Proofs.Identity

/-!
# What the checks of a planned type say

The planner looks at a type before and after its parts are planned: whether fields
and constructors have different names, which slots of a record may be empty. Of a type
that was planned these checks have passed. Here is what is known from that, without
the planner's monad.
-/

namespace Marshal

open Converter Planner PlanM

namespace World

/-- The type is an option, or a reference to one. -/
def StandsForOption (w : World) (ty : TyId) : Prop :=
  ∃ x, w.arena.term? ty = some (.option x) ∨
    ∃ r, w.Resolves ty (.ok r) ∧ w.arena.term? r.node = some (.option x)

variable {w : World} {ty : TyId}

/-! ## Options behind references -/

theorem resolves_of_run {r : Referent}
    (h : resolve w.catalog ty (blank w.arena) = (.ok r, blank w.arena)) :
    w.Resolves ty (.ok r) := by
  show w.catalog.resolve ty w.arena = (.ok r, w.arena)
  have unfolded : resolve w.catalog ty (blank w.arena) =
      ((w.catalog.resolve ty w.arena).1.mapError Halt.fault,
        (blank w.arena).on (w.catalog.resolve ty w.arena).2) := rfl
  rw [unfolded] at h
  obtain ⟨hr, hs⟩ := Prod.mk.inj h
  refine Prod.ext ?_ (congrArg (fun s => s.shared.arena) hs)
  cases hv : (w.catalog.resolve ty w.arena).1 with
  | ok v => rw [hv] at hr; cases hr; rfl
  | error f => rw [hv] at hr; cases hr

theorem resolvedTerm_named {catalog : Catalog} {s : PlanState} {key : Key} {args : List TyId}
    (h : s.shared.arena.term? ty = some (.named key args)) : resolvedTerm catalog ty s =
    (do
      let r ← resolve catalog ty
      pure ((← PlanM.arena).term? r.node) : PlanM (Option Term)) s := by
  rw [resolvedTerm, bind_ok (arena_run s), h]

theorem resolvedTerm_unnamed {catalog : Catalog} {s : PlanState}
    (h : ∀ key args, s.shared.arena.term? ty ≠ some (.named key args)) :
    resolvedTerm catalog ty s = (.ok (s.shared.arena.term? ty), s) := by
  rw [resolvedTerm, bind_ok (arena_run s)]
  cases ht : s.shared.arena.term? ty with
  | none => rfl
  | some t =>
      cases t with
      | named key args => exact absurd ht (h key args)
      | _ => rfl

/-- The term that stands behind a type. -/
theorem resolvedTerm_spec {t : Option Term}
    (h : resolvedTerm w.catalog ty (blank w.arena) = (.ok t, blank w.arena)) :
    (∃ r, w.Resolves ty (.ok r) ∧ t = w.arena.term? r.node) ∨
      t = w.arena.term? ty ∧ ∀ r, ¬w.Resolves ty (.ok r) := by
  have same : (blank w.arena).shared.arena.term? ty = w.arena.term? ty := rfl
  by_cases hn : ∃ key args, w.arena.term? ty = some (.named key args)
  · obtain ⟨key, args, hn⟩ := hn
    rw [resolvedTerm_named (same.trans hn)] at h
    rcases bind_cases h with ⟨_, -, ⟨⟩⟩ | ⟨r, s, hr, hrest⟩
    change (Except.ok (s.shared.arena.term? r.node), s) = _ at hrest
    cases hrest
    exact .inl ⟨r, resolves_of_run hr, rfl⟩
  · have hn : ∀ key args, w.arena.term? ty ≠ some (.named key args) :=
      fun key args h => hn ⟨key, args, h⟩
    rw [resolvedTerm_unnamed hn] at h
    refine .inr ⟨by cases h; rfl, fun r hr => ?_⟩
    obtain ⟨u, hu⟩ := (Edge.node hr).term?
    cases u with
    | named key args => exact hn key args hu
    | _ => cases hr.isReference hu

theorem standsForOption_spec {b : Bool}
    (h : standsForOption w.catalog ty (blank w.arena) = (.ok b, blank w.arena)) :
    b = true ↔ w.StandsForOption ty := by
  rcases bind_cases h with ⟨_, -, ⟨⟩⟩ | ⟨t, s, ht, hrest⟩
  have same : s = blank w.arena ∧ (b = true ↔ ∃ x, t = some (.option x)) := by
    rcases t with _ | (_ | _ | _ | _ | _ | _ | _ | _ | _ | _ | _ | _ | _) <;> cases hrest <;> simp
  obtain ⟨rfl, hb⟩ := same
  rw [hb]
  rcases resolvedTerm_spec ht with ⟨r, hr, rfl⟩ | ⟨rfl, hnone⟩
  · refine exists_congr fun x => ⟨fun h => .inr ⟨r, hr, h⟩, ?_⟩
    rintro (h | ⟨r', hr', h⟩)
    · cases hr.isReference h
    · cases hr.unique hr'
      exact h
  · refine exists_congr fun x => ⟨.inl, ?_⟩
    rintro (h | ⟨r', hr', -⟩)
    · exact h
    · exact absurd hr' (hnone r')

/-! ## Slots of records -/

theorem recordSlot_spec {f : Field} {slot : RecordSlot}
    (h : w.Answers (recordSlot w.catalog f) (.ok slot)) : slot.name = f.name ∧
      (slot.optional = true ↔ f.optional = true ∨ w.StandsForOption f.ty) := by
  unfold recordSlot at h
  cases hf : f.optional with
  | true =>
      rw [hf, if_pos rfl] at h
      cases (Answers.pure _).unique h
      simp
  | false =>
      rw [hf, if_neg Bool.false_ne_true] at h
      rcases bind_cases (h (blank w.arena) rfl) with ⟨_, -, ⟨⟩⟩ | ⟨b, s, hb, hrest⟩
      cases hrest
      simpa using standsForOption_spec hb

/-- The slots of a record. -/
theorem Ready.recordSlots (hw : w.Ready) : ∀ {fields : List Field} {slots : List RecordSlot},
    (∀ f ∈ fields, w.arena.Has f.ty) →
    w.Answers (fields.mapM (recordSlot w.catalog)) (.ok slots) →
    List.Forall₂ (fun (f : Field) (slot : RecordSlot) => slot.name = f.name ∧
      (slot.optional = true ↔ f.optional = true ∨ w.StandsForOption f.ty)) fields slots
  | [], slots, _, h => by
      cases (Answers.pure _).unique h
      exact .nil
  | f :: fs, slots, hf, h => by
      rw [List.mapM_cons] at h
      have hasHead := hf f (List.mem_cons_self ..)
      have hasTail : ∀ g ∈ fs, w.arena.Has g.ty := fun g hg => hf g (List.mem_cons_of_mem _ hg)
      have rest {a : Arena} {slot : RecordSlot} (hw' : a.Sound) (hwa : w.arena.Within a) :
          Looks (do let slots ← fs.mapM (recordSlot w.catalog); pure (slot :: slots)) a :=
        .bind (recordSlots_looks hw' (hw.spans.within hwa) fun g hg => hwa.has (hasTail g hg))
          fun h => .pure h.sound _
      rcases Answers.of_bind (recordSlot_looks hw.sound hw.spans hasHead)
        (fun hx => rest hx.sound hx.within) h with ⟨_, -, ⟨⟩⟩ | ⟨slot, hslot, h⟩
      rcases Answers.of_bind (recordSlots_looks hw.sound hw.spans hasTail)
        (fun hx => .pure hx.sound _) h with ⟨_, -, ⟨⟩⟩ | ⟨slots, hslots, h⟩
      cases (Answers.pure _).unique h
      exact .cons (recordSlot_spec hslot) (recordSlots hw hasTail hslots)

open Classical in
/-- The slot of a field: it may be empty if the field is optional, or stands for an
option. -/
noncomputable def slot (w : World) (f : Field) : RecordSlot :=
  ⟨f.name, decide (f.optional = true ∨ w.StandsForOption f.ty)⟩

theorem slot_optional {f : Field} :
    (w.slot f).optional = true ↔ f.optional = true ∨ w.StandsForOption f.ty := by simp [slot]

theorem Ready.slots_eq (hw : w.Ready) {fields : List Field} {slots : List RecordSlot}
    (hf : ∀ f ∈ fields, w.arena.Has f.ty)
    (h : w.Answers (fields.mapM (recordSlot w.catalog)) (.ok slots)) :
    slots = fields.map w.slot := by
  have spec := hw.recordSlots hf h
  clear h hf
  induction spec with
  | nil => rfl
  | @cons f slot fields slots hslot _ ih =>
      obtain ⟨hname, hopt⟩ := hslot
      have same : slot = w.slot f := by
        cases slot
        simp only [World.slot, RecordSlot.mk.injEq]
        exact ⟨hname, Bool.eq_iff_iff.mpr (by simpa using hopt)⟩
      rw [List.map_cons, ← same, ih]

/-! ## Names -/

theorem nodup_of_firstRepeated {names : List String} (h : firstRepeated names = none) :
    names.Nodup := by
  suffices all : ∀ {names seen : List String}, firstRepeated.go seen names = none →
      names.Nodup ∧ ∀ n ∈ names, n ∉ seen from (all h).1
  intro names
  induction names with
  | nil => intros; simp
  | cons n ns ih =>
      intro seen h
      rw [firstRepeated.go] at h
      split at h
      · cases h
      · next hn =>
          obtain ⟨hnodup, hseen⟩ := ih h
          have fresh : n ∉ ns := fun hmem => hseen n hmem (List.mem_cons_self ..)
          refine ⟨List.nodup_cons.mpr ⟨fresh, hnodup⟩, ?_⟩
          intro m hm
          rcases List.mem_cons.mp hm with rfl | hm
          · simpa using hn
          · exact fun h => hseen m hm (List.mem_cons_of_mem _ h)

theorem uniqueFields_spec {fields : List Field}
    (h : w.Answers (uniqueFields ty fields) (.ok ())) : (fields.map Field.name).Nodup := by
  unfold uniqueFields at h
  cases hr : firstRepeated (fields.map Field.name) with
  | none => exact nodup_of_firstRepeated hr
  | some name =>
      rw [hr] at h
      cases h (blank w.arena) rfl

theorem uniqueConstructors_spec {ks : List Constructor}
    (h : w.Answers (uniqueConstructors ty ks) (.ok ())) : (ks.map Constructor.name).Nodup := by
  unfold uniqueConstructors at h
  split at h
  · cases h (blank w.arena) rfl
  · cases hr : firstRepeated (ks.map Constructor.name) with
    | none => exact nodup_of_firstRepeated hr
    | some name =>
        rw [hr] at h
        cases h (blank w.arena) rfl

/-! ## Parts -/

/-- What a part's checks come to, the first of them comes to, or the second after it. -/
theorem Admits.cases {p : Part} {r : Except Halt Unit} (h : w.Admits p r) (hw : w.Ready)
    (hp : w.arena.Has p.ty) :
    (∃ n g, w.Answers (p.checkDefault w.catalog w.options n) (.error g) ∧ r = .error g) ∨
      ∃ n, w.Answers (p.checkDefault w.catalog w.options n) (.ok ()) ∧
        w.Answers (p.checkAbsence w.catalog) r := by
  obtain ⟨n, hn⟩ := h
  have looks : Looks (p.checkDefault w.catalog w.options n) w.arena :=
    let ⟨r, a, h, _⟩ := Part.checkDefault_inspects hw.sound hw.spans n hp
    ⟨r, a, h⟩
  have absence {u : Unit} {b : Arena} (hb : Inspects (p.checkDefault w.catalog w.options n)
      w.arena (.ok u) b) : Looks (p.checkAbsence w.catalog) b :=
    Part.checkAbsence_looks hb.sound (hw.spans.within hb.within) (hb.within.has hp)
  rcases Answers.of_bind looks absence (hn n (Nat.le_refl n)) with ⟨g, hg, hr⟩ | ⟨_, hok, hr⟩
  · exact .inl ⟨n, g, hg, hr⟩
  · exact .inr ⟨n, hok, hr⟩

end World

end Marshal
