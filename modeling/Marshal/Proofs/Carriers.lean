import Marshal.Proofs.Conversion

/-!
# Between carriers

Records move between objects and arrays, constructors between names and numbers.
Moving a record to an array needs every required field to be there; it is the only
move that may fail on a value of the right shape. `Variant.Carries` says which
constructor a value is, and with which payload. Decoding finds just that, since cases
have different names and each has its own number among those of its sort.
-/

namespace Marshal

open Value

/-! ## Records -/

namespace Run

variable {slots : List RecordSlot} {vs : List Value} {entries : List (String × Value)}

theorem mapM_element : ∀ {slots : List RecordSlot} {vs : List Value}, vs.length = slots.length →
    (∀ x ∈ slots.zip vs,
      findKey x.1.name entries = if x.2.isAbsent then none else some x.2) →
    ((∀ x ∈ slots.zip vs, x.2.isAbsent = true → x.1.optional = true) ∧
        slots.mapM (wrapRecord.element entries) = .ok vs) ∨
      (∃ x ∈ slots.zip vs, x.2.isAbsent = true ∧ x.1.optional = false) ∧
        ∃ f, slots.mapM (wrapRecord.element entries) = .error f
  | [], [], _, _ => .inl ⟨by simp, rfl⟩
  | [], _ :: _, hlen, _ => nomatch hlen
  | _ :: _, [], hlen, _ => nomatch hlen
  | slot :: slots, v :: vs, hlen, h => by
      have here := h (slot, v) (List.mem_cons_self ..)
      have rest := mapM_element (by simpa using hlen)
        fun x hx => h x (List.mem_cons_of_mem _ hx)
      rw [List.mapM_cons]
      by_cases missing : v.isAbsent = true ∧ slot.optional = false
      · refine .inr ⟨⟨(slot, v), List.mem_cons_self .., missing⟩,
          .shape ("record with field '" ++ slot.name ++ "'") "record without it", ?_⟩
        rw [wrapRecord.element, here, if_pos missing.1]
        simp only [missing.2]
        rfl
      · have found : wrapRecord.element entries slot = .ok v := by
          rw [wrapRecord.element, here]
          cases hv : v.isAbsent with
          | false => rfl
          | true =>
              have opt : slot.optional = true := by simpa [hv] using missing
              have absent : v = .absent := by cases v <;> first | rfl | cases hv
              simp [opt, absent]
        rw [found]
        rcases rest with ⟨hall, hok⟩ | ⟨⟨x, hx, hmissing⟩, f, herr⟩
        · refine .inl ⟨fun x hx hv => ?_, by rw [hok]; rfl⟩
          rcases List.mem_cons.mp hx with rfl | hx
          · simpa [hv] using missing
          · exact hall x hx hv
        · exact .inr ⟨⟨x, List.mem_cons_of_mem _ hx, hmissing⟩, f, by rw [herr]; rfl⟩

/-- A keyed record becomes an array unless a required field is left out. -/
theorem wrapRecord_keyed (h : Keyed entries ((slots.map RecordSlot.name).zip vs))
    (hk : (slots.map RecordSlot.name).Nodup) (hlen : vs.length = slots.length) :
    ((∀ x ∈ slots.zip vs, x.2.isAbsent = true → x.1.optional = true) ∧
        wrapRecord slots (.object entries) = .ok (.array vs)) ∨
      (∃ x ∈ slots.zip vs, x.2.isAbsent = true ∧ x.1.optional = false) ∧
        ∃ f, wrapRecord slots (.object entries) = .error f := by
  have nodup : (((slots.map RecordSlot.name).zip vs).map Prod.fst).Nodup := by
    rw [List.map_fst_zip (by simp [hlen])]
    exact hk
  have found : ∀ x ∈ slots.zip vs,
      findKey x.1.name entries = if x.2.isAbsent then none else some x.2 := by
    rintro ⟨slot, v⟩ hx
    refine h.findKey_eq nodup ?_
    rw [List.zip_map_left]
    exact List.mem_map.mpr ⟨(slot, v), hx, rfl⟩
  rcases mapM_element hlen found with ⟨hall, hok⟩ | ⟨hmissing, f, herr⟩
  · exact .inl ⟨hall, by rw [wrapRecord, hok]; rfl⟩
  · exact .inr ⟨hmissing, f, by rw [wrapRecord, herr]; rfl⟩

/-- An array becomes a keyed record, in which absent elements are left out. -/
theorem unwrapRecord_array (hlen : vs.length = slots.length) :
    ∃ entries, unwrapRecord slots (.array vs) = .ok (.object entries) ∧
      Keyed entries ((slots.map RecordSlot.name).zip vs) := by
  refine ⟨present ((slots.map RecordSlot.name).zip vs), ?_, ?_⟩
  · rw [unwrapRecord, if_pos hlen]
    rfl
  · simp [Keyed, present]

variable {table : FixTable} {s : Store}

/-- An object becomes an array if no slot that has to be filled is empty. -/
theorem Lands.wrapRecord (h : Keyed entries ((slots.map RecordSlot.name).zip vs))
    (hk : (slots.map RecordSlot.name).Nodup) (hlen : vs.length = slots.length) :
    Lands table (.wrapRecord slots) s (.object entries)
      (∀ x ∈ slots.zip vs, x.2.isAbsent = true → x.1.optional = true) fun _ v => v = .array vs :=
  .of_layer fun s' _ => by
    refine Ends.ofExcept ?_ ?_
    · intro v hv
      rcases wrapRecord_keyed h hk hlen with ⟨hall, hok⟩ | ⟨-, f, herr⟩
      · cases hok.symm.trans hv
        exact ⟨hall, rfl⟩
      · cases herr.symm.trans hv
    · intro f hf
      rcases wrapRecord_keyed h hk hlen with ⟨-, hok⟩ | ⟨⟨x, hx, habsent, hopt⟩, -⟩
      · cases hok.symm.trans hf
      · intro hall
        rw [hall x hx habsent] at hopt
        cases hopt

theorem Lands.unwrapRecord (hlen : vs.length = slots.length) :
    Lands table (.unwrapRecord slots) s (.array vs) True fun _ v =>
      ∃ entries, v = .object entries ∧ Keyed entries ((slots.map RecordSlot.name).zip vs) :=
  .of_layer fun s' _ => by
    obtain ⟨entries, hok, hk⟩ := unwrapRecord_array hlen
    simp only [applyLayer, hok]
    exact .pure ⟨entries, rfl, hk⟩

end Run

/-! ## Variants -/

namespace Variant

variable {cases : List CaseStep} {carrier : VariantCarrier} {i n : Nat} {c : CaseStep}
  {name : String} {nullary : Bool} {v : Value} {payload : Option Value}

theorem byName_eq (hn : (cases.map CaseStep.name).Nodup) (hc : cases[i]? = some c)
    (hnullary : c.isNullary = nullary) : byName cases c.name nullary = .ok i := by
  obtain ⟨hi, rfl⟩ := List.getElem?_eq_some_iff.mp hc
  have found : cases.findIdx? (fun k => k.name = cases[i].name && k.isNullary == nullary) =
      some i := by
    rw [List.findIdx?_eq_some_iff_getElem]
    refine ⟨hi, by simp [hnullary], fun j hj => ?_⟩
    have differ : cases[j].name ≠ cases[i].name := by
      have := List.pairwise_iff_getElem.mp hn j i (by simpa using Nat.lt_trans hj hi)
        (by simpa using hi) hj
      simpa using this
    simp [differ]
  simp only [byName, found]

theorem byName_ok (h : byName cases name nullary = .ok i) :
    ∃ c, cases[i]? = some c ∧ c.isNullary = nullary ∧ c.name = name := by
  unfold byName at h
  split at h
  · next k hk =>
      cases h
      obtain ⟨hi, hfound, -⟩ := List.findIdx?_eq_some_iff_getElem.mp hk
      simp only [Bool.and_eq_true, decide_eq_true_eq, beq_iff_eq] at hfound
      exact ⟨cases[i], List.getElem?_eq_getElem hi, hfound.2, hfound.1⟩
  · cases h

/-- The cases of a sort, counted as positions or as cases. -/
theorem length_filter_range (hi : i ≤ cases.length) :
    ((List.range i).filter fun j => (cases[j]?.map CaseStep.isNullary) == some nullary).length =
      ((cases.take i).filter fun c => c.isNullary == nullary).length := by
  induction i with
  | zero => rfl
  | succ i ih =>
      have here : cases[i]? = some cases[i] := List.getElem?_eq_getElem hi
      rw [List.range_succ, List.filter_append, List.length_append, ih (by omega),
        List.take_add_one, here, List.filter_append, List.length_append]
      congr 1
      simp only [Option.toList_some, List.filter_cons, List.filter_nil, here, Option.map_some]
      by_cases h : cases[i].isNullary = nullary <;> simp [h]

/-- Among the positions of its sort, that of a case stands at the number of the case. -/
theorem getElem?_positions (hc : cases[i]? = some c) (hnullary : c.isNullary = nullary) :
    (positions cases nullary)[numberOf cases i nullary]? = some i := by
  obtain ⟨hi, rfl⟩ := List.getElem?_eq_some_iff.mp hc
  obtain ⟨k, hk⟩ : ∃ k, cases.length = i + (k + 1) := ⟨cases.length - i - 1, by omega⟩
  have here : (fun j => (cases[j]?.map CaseStep.isNullary) == some nullary) i = true := by
    simp [List.getElem?_eq_getElem hi, hnullary]
  rw [positions, hk, List.range_add, List.filter_append, List.range_succ_eq_map, List.map_cons,
    Nat.add_zero,
    List.filter_cons_of_pos
      (p := fun j => (cases[j]?.map CaseStep.isNullary) == some nullary) here,
    numberOf, ← length_filter_range (Nat.le_of_lt hi), List.getElem?_append_right (Nat.le_refl _),
    Nat.sub_self]
  rfl

theorem byNumber_eq (hc : cases[i]? = some c) (hnullary : c.isNullary = nullary) :
    byNumber cases (numberOf cases i nullary) nullary = .ok i := by
  simp only [byNumber, getElem?_positions hc hnullary]

theorem byNumber_ok (h : byNumber cases n nullary = .ok i) :
    ∃ c, cases[i]? = some c ∧ c.isNullary = nullary ∧ numberOf cases i nullary = n := by
  unfold byNumber at h
  cases hn : (positions cases nullary)[n]? with
  | none => rw [hn] at h; cases h
  | some k =>
      rw [hn] at h
      cases h
      obtain ⟨-, hsort⟩ := List.mem_filter.mp (List.mem_of_getElem? hn)
      obtain ⟨c, hc, hnullary⟩ := Option.map_eq_some_iff.mp (eq_of_beq hsort)
      -- No position stands twice.
      have nodup : (positions cases nullary).Nodup := List.nodup_range.filter _
      have found := getElem?_positions hc hnullary
      refine ⟨c, hc, hnullary, ?_⟩
      exact (List.getElem?_inj (List.getElem?_eq_some_iff.mp found).1 nodup).mp
        (found.trans hn.symm)

theorem numberOf_map (ks : List Constructor) (f : Constructor → CaseStep)
    (hf : ∀ k, (f k).isNullary = k.payload.isNone) (i : Nat) (nullary : Bool) :
    numberOf (ks.map f) i nullary =
      ((ks.take i).filter fun k => k.payload.isNone == nullary).length := by
  rw [numberOf, ← List.map_take, List.filter_map, List.length_map]
  simp [Function.comp_def, hf]

/-- A lookup that does not find a case fails with a mismatch of shapes. -/
theorem byName_error {f : Fault} (h : byName cases name nullary = .error f) :
    ∃ expected found, f = .shape expected found := by
  unfold byName at h
  split at h
  · cases h
  · cases h; exact ⟨_, _, rfl⟩

theorem byNumber_error {f : Fault} (h : byNumber cases n nullary = .error f) :
    ∃ expected found, f = .shape expected found := by
  unfold byNumber at h
  split at h
  · cases h
  · cases h; exact ⟨_, _, rfl⟩

/-! ### What a value carries -/

/-- The value is the `i`th constructor, with this payload, in this carrier. -/
inductive Carries (cases : List CaseStep) :
    VariantCarrier → Nat → Option Value → Value → Prop
  | name {i : Nat} {c : CaseStep} : cases[i]? = some c → c.isNullary = true →
      Carries cases .tagged i none (.str c.name)
  | tagged {i : Nat} {c : CaseStep} {entries : List (String × Value)} : cases[i]? = some c →
      c.isNullary = false → findKey "tag" entries = some (.str c.name) →
      Carries cases .tagged i (some ((findKey "value" entries).getD .absent)) (.object entries)
  | number {i : Nat} {c : CaseStep} {n : Int64} : cases[i]? = some c → c.isNullary = true →
      n.toInt = numberOf cases i true → Carries cases .indexed i none (.int n)
  | block {i : Nat} {c : CaseStep} {tag : UInt32} {p : Value} : cases[i]? = some c →
      c.isNullary = false → tag.toNat = numberOf cases i false →
      Carries cases .indexed i (some p) (.block tag [p])

/-- A lookup that finds a case, with the payload that goes with it. -/
theorem lookup_ok_iff {x : Except Fault Nat} {found : Option Value} :
    (do pure (← x, found) : Except Fault (Nat × Option Value)) = .ok (i, payload) ↔
      x = .ok i ∧ found = payload := by
  cases x with
  | error f => exact iff_of_false nofun nofun
  | ok k =>
      constructor
      · intro h
        cases h
        exact ⟨rfl, rfl⟩
      · rintro ⟨hk, rfl⟩
        cases hk
        rfl

/-- Decoding finds what the value carries. -/
theorem Carries.of_decode (h : decode carrier cases v = .ok (i, payload)) :
    Carries cases carrier i payload v := by
  unfold decode at h
  split at h
  · obtain ⟨hi, rfl⟩ := lookup_ok_iff.mp h
    obtain ⟨c, hc, hnullary, rfl⟩ := byName_ok hi
    exact .name hc hnullary
  · split at h
    · next htag =>
        obtain ⟨hi, rfl⟩ := lookup_ok_iff.mp h
        obtain ⟨c, hc, hnullary, rfl⟩ := byName_ok hi
        exact .tagged hc hnullary htag
    · cases h
  · split at h
    · obtain ⟨hi, rfl⟩ := lookup_ok_iff.mp h
      obtain ⟨c, hc, hnullary, hnum⟩ := byNumber_ok hi
      exact .number hc hnullary (by omega)
    · cases h
  · obtain ⟨hi, rfl⟩ := lookup_ok_iff.mp h
    obtain ⟨c, hc, hnullary, hnum⟩ := byNumber_ok hi
    exact .block hc hnullary hnum.symm
  · cases h

/-- What a value carries is decoded if names tell the cases apart. -/
theorem Carries.decodes (hn : (cases.map CaseStep.name).Nodup)
    (h : Carries cases carrier i payload v) : decode carrier cases v = .ok (i, payload) := by
  cases h with
  | name hc hnullary => exact lookup_ok_iff.mpr ⟨byName_eq hn hc hnullary, rfl⟩
  | tagged hc hnullary htag =>
      simp only [decode, htag]
      exact lookup_ok_iff.mpr ⟨byName_eq hn hc hnullary, rfl⟩
  | number hc hnullary hnum =>
      simp only [decode]
      rw [if_pos (by omega)]
      refine lookup_ok_iff.mpr ⟨?_, rfl⟩
      rw [hnum, Int.toNat_natCast]
      exact byNumber_eq hc hnullary
  | block hc hnullary hnum =>
      refine lookup_ok_iff.mpr ⟨?_, rfl⟩
      rw [hnum]
      exact byNumber_eq hc hnullary

/-- What is not decoded is refused with a mismatch of shapes. -/
theorem decode_error {f : Fault} (h : decode carrier cases v = .error f) :
    ∃ expected found, f = .shape expected found := by
  have refused {x : Except Fault Nat} {found : Option Value}
      (h : (do pure (← x, found) : Except Fault (Nat × Option Value)) = .error f) :
      x = .error f := by
    cases x with
    | error g => cases h; rfl
    | ok k => cases h
  unfold decode at h
  split at h
  · exact byName_error (refused h)
  · split at h
    · exact byName_error (refused h)
    · cases h; exact ⟨_, _, rfl⟩
  · split at h
    · exact byNumber_error (refused h)
    · cases h; exact ⟨_, _, rfl⟩
  · exact byNumber_error (refused h)
  · cases h; exact ⟨_, _, rfl⟩

end Variant

end Marshal
