import Mathlib.Data.List.Perm.Subperm
import Marshal.Proofs.Carriers
import Marshal.Proofs.Equality

/-!
# Constructors in either carrier

A case of a variant is known by its name in one carrier and by its number in the other, where
the nullary cases and those with a payload are numbered apart. `Carries` is what it means that a
value is a constructor with a payload, read off the value alone; decoding finds exactly this
(`decode_ok_iff`), and what a value carries is what it was encoded from, apart from entries that
an object has besides or in another order (`carries_iff`). So decoding and encoding undo each
other, and so does moving a variant to the other carrier and back (`Variant.carriers_undo`).
-/

namespace Marshal

open Value

/-! ## Objects with more in them -/

/-- The second value is the first one, or both are objects and the first has all that the second
has: the same is found under the keys of the second, and its present entries are among those of
the first, in whatever order. -/
inductive Value.Covers : Value → Value → Prop
  | refl (v : Value) : Covers v v
  | object {entries kept : List (String × Value)} :
      (∀ k ∈ kept.map Prod.fst, findKey k entries = findKey k kept) →
      (present kept).Subperm (present entries) → Covers (.object entries) (.object kept)

namespace Variant

variable {cases : List CaseStep} {carrier : VariantCarrier} {i j : Nat} {c : CaseStep}
  {name : String} {nullary : Bool} {v w p q : Value} {payload : Option Value} {s : Store}

/-! ## Different cases -/

/-- Cases of one sort with the same number are the same case. -/
theorem index_eq {c' : CaseStep} (hc : cases[i]? = some c) (hc' : cases[j]? = some c')
    (hnullary : c.isNullary = nullary) (hnullary' : c'.isNullary = nullary)
    (h : numberOf cases i nullary = numberOf cases j nullary) : i = j :=
  Except.ok.inj ((byNumber_eq hc hnullary).symm.trans (h ▸ byNumber_eq hc' hnullary'))

/-- Cases of one name are the same case. -/
theorem index_eq_of_name {c' : CaseStep} (hn : (cases.map CaseStep.name).Nodup)
    (hc : cases[i]? = some c) (hc' : cases[j]? = some c') (h : c.name = c'.name) : i = j := by
  have here : (cases.map CaseStep.name)[i]? = some c.name := by rw [List.getElem?_map, hc]; rfl
  have there : (cases.map CaseStep.name)[j]? = some c.name := by
    rw [List.getElem?_map, hc', h]; rfl
  exact (List.getElem?_inj (List.getElem?_eq_some_iff.mp here).1 hn).mp (here.trans there.symm)

/-- Equal values carry the same constructor. -/
theorem Carries.index_eq (hn : (cases.map CaseStep.name).Nodup) {payload' : Option Value}
    (hv : Carries cases carrier i payload v) (hw : Carries cases carrier j payload' w)
    (h : v.Equal s w) : i = j := by
  obtain ⟨_ | depth, h⟩ := h
  · cases h
  cases hv with
  | name hc =>
      cases hw with
      | name hc' => exact index_eq_of_name hn hc hc' (eq_of_beq h)
      | tagged => cases h
  | tagged hc _ htag =>
      cases hw with
      | name => cases h
      | tagged hc' _ htag' =>
          obtain ⟨w, hw, heq⟩ := (sameEntries_iff.mp h).2 _ (findKey_eq_some htag)
          cases htag'.symm.trans hw
          cases depth with
          | zero => cases heq
          | succ depth => exact index_eq_of_name hn hc hc' (eq_of_beq heq).symm
  | number hc hnullary hnum =>
      cases hw with
      | number hc' hnullary' hnum' =>
          cases eq_of_beq h
          exact Variant.index_eq hc hc' hnullary hnullary' (Int.ofNat_inj.mp (hnum ▸ hnum'))
      | block => cases h
  | block hc hnullary hnum =>
      cases hw with
      | number => cases h
      | block hc' hnullary' hnum' =>
          cases eq_of_beq (Bool.and_eq_true _ _ ▸ h).1
          exact Variant.index_eq hc hc' hnullary hnullary' (hnum.symm.trans hnum')

/-! ## Encoding -/

/-- The case is there, and it comes with a payload just if it is not nullary. -/
def Fits (cases : List CaseStep) (i : Nat) (payload : Option Value) : Prop :=
  ∃ c, cases[i]? = some c ∧ c.isNullary = payload.isNone

theorem Carries.fits (h : Carries cases carrier i payload v) : Fits cases i payload := by
  cases h with
  | name hc hnullary | tagged hc hnullary | number hc hnullary | block hc hnullary =>
      exact ⟨_, hc, hnullary⟩

/-- Decoding finds what the value carries, and nothing else. -/
theorem decode_ok_iff (hn : (cases.map CaseStep.name).Nodup) :
    decode carrier cases v = .ok (i, payload) ↔ Carries cases carrier i payload v :=
  ⟨.of_decode, Carries.decodes hn⟩

theorem encode_name (hc : cases[i]? = some c) : encode .tagged cases i none = .str c.name := by
  rw [encode, hc]

theorem encode_tagged (hc : cases[i]? = some c) :
    encode .tagged cases i (some p) = .object [("tag", .str c.name), ("value", p)] := by
  rw [encode, hc]

theorem encode_number (hc : cases[i]? = some c) (hnullary : c.isNullary = true) :
    encode .indexed cases i none = .int (Int64.ofNat (numberOf cases i true)) := by
  rw [encode, hc, ← hnullary]

theorem encode_numbered (hc : cases[i]? = some c) (hnullary : c.isNullary = false) :
    encode .indexed cases i (some p) = .block (UInt32.ofNat (numberOf cases i false)) [p] := by
  rw [encode, hc, ← hnullary]

theorem findKey_tag : findKey "tag" [("tag", .str name), ("value", p)] = some (.str name) := rfl

theorem findKey_value :
    (findKey "value" [("tag", .str name), ("value", p)]).getD .absent = p := by
  cases p <;> rfl

/-- An object with this tag has all that its encoding has. -/
theorem covers_tagged {entries : List (String × Value)}
    (htag : findKey "tag" entries = some (.str name)) :
    (Value.object entries).Covers (.object
      [("tag", .str name), ("value", (findKey "value" entries).getD .absent)]) := by
  have value : findKey "value" [("tag", .str name),
      ("value", (findKey "value" entries).getD .absent)] = findKey "value" entries := by
    cases hf : findKey "value" entries with
    | none => rfl
    | some p =>
        have present := (mem_present.mp (findKey_eq_some hf)).2
        simp [findKey, present]
  refine .object (fun k hk => ?_) (List.subperm_of_subset ?_ fun e he => ?_)
  · rcases List.mem_pair.mp hk with rfl | rfl
    · rw [htag, findKey_tag]
    · exact value.symm
  · refine List.Nodup.filter _ (List.Nodup.of_map Prod.fst ?_)
    simp
  · obtain ⟨he, hpresent⟩ := List.mem_filter.mp he
    rcases List.mem_pair.mp he with rfl | rfl
    · exact findKey_eq_some htag
    · refine findKey_eq_some (value.symm.trans ?_)
      simpa [findKey] using hpresent

theorem numberOf_le : numberOf cases i nullary ≤ cases.length :=
  Nat.le_trans (List.length_filter_le ..) (List.length_take_le' ..)

/-- What a value carries is what it was encoded from. -/
theorem carries_iff (hlen : cases.length < UInt32.size) : Carries cases carrier i payload v ↔
    Fits cases i payload ∧ v.Covers (encode carrier cases i payload) := by
  have below (nullary : Bool) : numberOf cases i nullary < UInt32.size :=
    Nat.lt_of_le_of_lt numberOf_le hlen
  have toInt : (Int64.ofNat (numberOf cases i true)).toInt = numberOf cases i true :=
    Int64.toInt_ofNat_of_lt (Nat.lt_trans (below true) (by decide))
  constructor
  · intro h
    refine ⟨h.fits, ?_⟩
    cases h with
    | name hc => exact encode_name hc ▸ .refl _
    | tagged hc _ htag => exact encode_tagged hc ▸ covers_tagged htag
    | number hc hnullary hnum =>
        rw [encode_number hc hnullary, Int64.toInt_inj.mp (hnum.trans toInt.symm)]
        exact .refl _
    | block hc hnullary hnum =>
        rw [encode_numbered hc hnullary, ← hnum, UInt32.ofNat_toNat]
        exact .refl _
  · rintro ⟨⟨c, hc, hnullary⟩, h⟩
    cases carrier with
    | tagged =>
        cases payload with
        | none =>
            rw [encode_name hc] at h
            cases h
            exact .name hc hnullary
        | some p =>
            rw [encode_tagged hc] at h
            have tagged {entries : List (String × Value)}
                (htag : findKey "tag" entries = some (.str c.name))
                (hvalue : (findKey "value" entries).getD .absent = p) :
                Carries cases .tagged i (some p) (.object entries) :=
              hvalue ▸ .tagged hc hnullary htag
            cases h with
            | refl => exact tagged findKey_tag findKey_value
            | object hkeys =>
                exact tagged ((hkeys "tag" (by simp)).trans findKey_tag)
                  (by rw [hkeys "value" (by simp), findKey_value])
    | indexed =>
        cases payload with
        | none =>
            rw [encode_number hc hnullary] at h
            cases h
            exact .number hc hnullary toInt
        | some p =>
            rw [encode_numbered hc hnullary] at h
            cases h
            exact .block hc hnullary (UInt32.toNat_ofNat_of_lt' (below false))

/-! ## There and back -/

/-- No case has anything to convert in its payload. -/
def Plain (cases : List CaseStep) : Prop :=
  ∀ c ∈ cases, ∀ step, c.payload = some step → step = .identity

section Retagging

variable {source target : VariantCarrier} {table : FixTable} {d : Nat}

/-- Moving a variant whose payload is not converted is decoding and encoding. -/
theorem retag_run (hplain : Plain cases) (hfits : Fits cases i payload)
    (h : decode source cases v = .ok (i, payload)) :
    Run.applyWithin table (d + 2) (.retag source target cases) v s =
      (.ok (encode target cases i payload), s) := by
  obtain ⟨c, hc, hnullary⟩ := hfits
  rw [Run.applyWithin]
  simp only [Run.applyLayer, h, Run.ofExcept, pure_bind, hc, Option.bind_some]
  cases payload with
  | none =>
      rw [Option.isNone_iff_eq_none.mp hnullary]
      rfl
  | some p =>
      cases hstep : c.payload with
      | none => simp [CaseStep.isNullary, hstep] at hnullary
      | some step =>
          rw [hplain c (List.mem_of_getElem? hc) step hstep]
          rfl

theorem retag_refused {f : Fault} (h : decode source cases v = .error f) :
    Run.applyWithin table (d + 1) (.retag source target cases) v s =
      (.error (.fault f), s) := by
  rw [Run.applyWithin]
  simp only [Run.applyLayer, h]
  rfl

end Retagging

/-- Of cases with different names, both carriers carry each case with its payload, and nothing
besides: what was encoded is decoded, different cases are never equal, what is decoded has all
that its encoding has, and all else is refused. So moving a variant to a carrier and back loses
only what an object has besides. -/
theorem carriers_undo (hn : (cases.map CaseStep.name).Nodup) (hlen : cases.length < UInt32.size) :
    (∀ carrier i payload, Fits cases i payload →
      decode carrier cases (encode carrier cases i payload) = .ok (i, payload)) ∧
    (∀ carrier i j payload payload' s, Fits cases i payload → Fits cases j payload' → i ≠ j →
      ¬(encode carrier cases i payload).Equal s (encode carrier cases j payload')) ∧
    (∀ carrier v i payload, decode carrier cases v = .ok (i, payload) ↔
      Fits cases i payload ∧ v.Covers (encode carrier cases i payload)) ∧
    (∀ carrier v, (∀ i payload, Fits cases i payload →
        ¬v.Covers (encode carrier cases i payload)) →
      ∃ expected found, decode carrier cases v = .error (.shape expected found)) ∧
    (Plain cases → ∀ source target table d v s,
      (∀ i payload, Fits cases i payload → v.Covers (encode source cases i payload) →
        Run.applyWithin table (d + 2) (.retag source target cases) v s =
          (.ok (encode target cases i payload), s) ∧
        Run.applyWithin table (d + 2) (.retag target source cases)
          (encode target cases i payload) s = (.ok (encode source cases i payload), s)) ∧
      ((∀ i payload, Fits cases i payload → ¬v.Covers (encode source cases i payload)) →
        ∃ expected found, Run.applyWithin table (d + 2) (.retag source target cases) v s =
          (.error (.fault (.shape expected found)), s))) := by
  have decodes (carrier : VariantCarrier) (v : Value) (i : Nat) (payload : Option Value) :
      decode carrier cases v = .ok (i, payload) ↔
        Fits cases i payload ∧ v.Covers (encode carrier cases i payload) :=
    (decode_ok_iff hn).trans (carries_iff hlen)
  have undo (carrier : VariantCarrier) (i : Nat) (payload : Option Value)
      (h : Fits cases i payload) :
      decode carrier cases (encode carrier cases i payload) = .ok (i, payload) :=
    (decodes ..).mpr ⟨h, .refl _⟩
  have refuses (carrier : VariantCarrier) (v : Value) (h : ∀ i payload, Fits cases i payload →
      ¬v.Covers (encode carrier cases i payload)) :
      ∃ expected found, decode carrier cases v = .error (.shape expected found) := by
    cases hd : decode carrier cases v with
    | ok r =>
        obtain ⟨hfits, hcovers⟩ := (decodes carrier v r.1 r.2).mp hd
        exact absurd hcovers (h _ _ hfits)
    | error f =>
        obtain ⟨expected, found, rfl⟩ := decode_error hd
        exact ⟨expected, found, rfl⟩
  refine ⟨undo, ?_, decodes, refuses, ?_⟩
  · intro carrier i j payload payload' s hi hj hne h
    have carries {i : Nat} {payload : Option Value} (h : Fits cases i payload) :=
      (decode_ok_iff hn).mp (undo carrier i payload h)
    exact hne ((carries hi).index_eq hn (carries hj) h)
  · intro hplain source target table d v s
    refine ⟨fun i payload hfits hcovers => ⟨?_, ?_⟩, fun h => ?_⟩
    · exact retag_run hplain hfits ((decodes source v i payload).mpr ⟨hfits, hcovers⟩)
    · exact retag_run hplain hfits (undo target i payload hfits)
    · obtain ⟨expected, found, hd⟩ := refuses source v h
      exact ⟨expected, found, retag_refused hd⟩

/-- Nullary cases and cases with a payload take turns. -/
def mixed : List CaseStep :=
  [⟨"Off", none⟩, ⟨"Dim", some .identity⟩, ⟨"On", none⟩, ⟨"Tint", some .identity⟩]

theorem plain_mixed : Plain mixed := by
  intro c hc step hstep
  simp only [mixed, List.mem_cons, List.not_mem_nil, or_false] at hc
  rcases hc with rfl | rfl | rfl | rfl <;> cases hstep
  all_goals rfl

/-- The second constructor with a payload: it is decoded though its payload is absent, the second
nullary one is not the first, and an object with the tag last comes back from its number. -/
theorem carriers_undo_mixed :
    decode .tagged mixed (encode .tagged mixed 3 (some .absent)) = .ok (3, some .absent) ∧
    ¬(encode .indexed mixed 0 none).Equal .empty (encode .indexed mixed 2 none) ∧
    Run.applyWithin .empty 2 (.retag .tagged .indexed mixed)
        (.object [("note", .null), ("value", .int 5), ("tag", .str "Tint")]) .empty =
      (.ok (.block 1 [.int 5]), .empty) ∧
    Run.applyWithin .empty 2 (.retag .indexed .tagged mixed) (.block 1 [.int 5]) .empty =
      (.ok (.object [("tag", .str "Tint"), ("value", .int 5)]), .empty) := by
  obtain ⟨decodes, differ, accepts, -, retags⟩ :=
    carriers_undo (show (mixed.map CaseStep.name).Nodup by decide) (by decide)
  have fits (p : Value) : Fits mixed 3 (some p) := ⟨_, rfl, rfl⟩
  have covers := ((accepts .tagged
    (.object [("note", .null), ("value", .int 5), ("tag", .str "Tint")]) 3 (some (.int 5))).mp
      (by rfl)).2
  exact ⟨decodes .tagged 3 _ (fits .absent),
    differ .indexed 0 2 none none .empty ⟨_, rfl, rfl⟩ ⟨_, rfl, rfl⟩ (by decide),
    (retags plain_mixed .tagged .indexed .empty 0 _ .empty).1 3 _ (fits (.int 5)) covers⟩

end Variant

end Marshal
