import Mathlib.Data.Fintype.EquivFin
import Marshal.Proofs.Equality

/-!
# Laws of equality

Equality of values is transitive whatever the values are, and on tidy values it is an
equivalence (`Value.equality_laws`). The laws fail if an object has several present entries
under one key, since only the first one is found under it: the others are compared with the
first, so an object need not equal itself, and they are counted, so an object equals others that
have further keys in their stead and do not equal it.

Nothing weaker than distinct keys will do, even if all values in an object are tidy. For an
object with a key twice that equals itself, `exists_impostor` puts a new key in the place of the
second entry.
-/

namespace Marshal

theorem Binary64.numEq_trans {x y z : Binary64} (h : x.numEq y = true) (h' : y.numEq z = true) :
    x.numEq z = true := by
  simp only [numEq, Bool.and_eq_true, Bool.or_eq_true, beq_iff_eq] at h h' ⊢
  refine ⟨⟨h.1.1, h'.1.2⟩, ?_⟩
  rcases h.2 with rfl | hxy
  · exact h'.2
  · rcases h'.2 with rfl | hyz
    · exact .inr hxy
    · exact .inr ⟨hxy.1, hyz.2⟩

namespace Value

variable {s : Store} {u v w : Value} {k : String} {a b front rest : List (String × Value)}

/-! ## Transitivity -/

theorem all₂_trans {eq : Value → Value → Bool}
    (h : ∀ u v w, eq u v = true → eq v w = true → eq u w = true) :
    ∀ {us vs ws : List Value}, all₂ eq us vs = true → all₂ eq vs ws = true →
      all₂ eq us ws = true
  | [], [], [], _, _ => rfl
  | _ :: _, _ :: _, _ :: _, huv, hvw => by
      rw [all₂, Bool.and_eq_true] at huv hvw ⊢
      exact ⟨h _ _ _ huv.1 hvw.1, all₂_trans h huv.2 hvw.2⟩

theorem sameEntries_trans {eq : Value → Value → Bool}
    (h : ∀ u v w, eq u v = true → eq v w = true → eq u w = true)
    {a b c : List (String × Value)} (hab : sameEntries eq a b = true)
    (hbc : sameEntries eq b c = true) : sameEntries eq a c = true := by
  rw [sameEntries_iff] at hab hbc ⊢
  refine ⟨hab.1.trans hbc.1, fun e he => ?_⟩
  obtain ⟨v, hv, hve⟩ := hab.2 e he
  obtain ⟨w, hw, hwv⟩ := hbc.2 (e.1, v) (findKey_eq_some hv)
  exact ⟨w, hw, h w v e.2 hwv hve⟩

theorem equalWithin_trans : ∀ {n : Nat} {u v w : Value}, equalWithin s n u v = true →
    equalWithin s n v w = true → equalWithin s n u w = true
  | 0, _, _, _, h, _ => by cases h
  | n + 1, u, v, w, huv, hvw => by
      have deeper : ∀ u v w, equalWithin s n u v = true → equalWithin s n v w = true →
          equalWithin s n u w = true := fun u v w => equalWithin_trans
      unfold equalWithin at huv
      split at huv
      case h_4 => cases eq_of_beq huv; exact hvw
      case h_5 => cases eq_of_beq huv; exact hvw
      case h_7 => cases eq_of_beq huv; exact hvw
      case h_6 =>
        cases w with
        | float => exact Binary64.numEq_trans huv hvw
        | _ => cases hvw
      case h_8 =>
        cases w with
        | array => exact all₂_trans deeper huv hvw
        | _ => cases hvw
      case h_9 =>
        cases w with
        | object => exact sameEntries_trans deeper huv hvw
        | _ => cases hvw
      case h_10 =>
        cases w with
        | block =>
            rw [equalWithin, Bool.and_eq_true] at hvw ⊢
            rw [Bool.and_eq_true] at huv
            cases eq_of_beq huv.1
            exact ⟨hvw.1, all₂_trans deeper huv.2 hvw.2⟩
        | _ => cases hvw
      case h_11 =>
        cases w with
        | box =>
            rw [equalWithin, Bool.or_eq_true] at hvw ⊢
            rw [Bool.or_eq_true] at huv
            rcases huv with hab | hab
            · cases eq_of_beq hab
              exact hvw
            · rcases hvw with hbc | hbc
              · cases eq_of_beq hbc
                exact .inr hab
              · exact .inr (deeper _ _ _ hab hbc)
        | _ => cases hvw
      case h_12 =>
        cases w with
        | fn => exact beq_iff_eq.mpr ((eq_of_beq huv).trans (eq_of_beq hvw))
        | _ => cases hvw
      all_goals first | exact hvw | cases huv

theorem Equal.trans (huv : u.Equal s v) (hvw : v.Equal s w) : u.Equal s w := by
  obtain ⟨n, huv⟩ := huv
  obtain ⟨m, hvw⟩ := hvw
  exact ⟨max n m, equalWithin_trans (equalWithin_mono (Nat.le_max_left ..) huv)
    (equalWithin_mono (Nat.le_max_right ..) hvw)⟩

/-! ## Distinct keys -/

/-- Keys are distinct if no present entry is under a key that came before. -/
theorem distinct_of_splits : ∀ {a : List (String × Value)},
    (∀ front k v rest, a = front ++ (k, v) :: rest → v.isAbsent = false →
      k ∉ (present front).map Prod.fst) → Distinct a := by
  intro a
  induction a using List.reverseRecOn with
  | nil => exact fun _ => List.nodup_nil
  | append_singleton init e ih =>
      intro h
      obtain ⟨k, v⟩ := e
      have distinct : Distinct init := ih fun front k' v' rest split =>
        h front k' v' (rest ++ [(k, v)]) (by rw [split, List.append_assoc, List.cons_append])
      rw [Distinct, present_append, List.map_append]
      cases hv : v.isAbsent with
      | true => simpa [Distinct, present, hv] using distinct
      | false =>
          rw [present_cons hv]
          refine List.nodup_append.mpr ⟨distinct, List.nodup_singleton _, ?_⟩
          rintro _ hk _ hk' rfl
          cases List.mem_singleton.mp hk'
          exact h init k v [] rfl hv hk

theorem Distinct.of_equal (ha : Distinct a) (h : (object a).Equal s (.object b)) : Distinct b := by
  obtain ⟨hlen, h⟩ := Equal.object_iff.mp h
  refine (ha.keys_perm hlen fun k hk => ?_).nodup_iff.mp ha
  obtain ⟨v, hv⟩ := Option.isSome_iff_exists.mp hk
  obtain ⟨w, hw, -⟩ := h (k, v) (findKey_eq_some hv)
  exact Option.isSome_iff_exists.mpr ⟨w, hw⟩

theorem findKey_shadowed (hk : k ∈ (present front).map Prod.fst) (j : String) :
    findKey j (front ++ (k, v) :: rest) = findKey j (front ++ rest) := by
  rw [findKey_append, findKey_append]
  by_cases hj : j = k
  · obtain ⟨w, hw⟩ := Option.isSome_iff_exists.mp (findKey_isSome_iff.mpr (hj ▸ hk))
    rw [hw, Option.some_or, Option.some_or]
  · rw [Value.findKey, if_neg fun h => hj h.1.symm]

/-- A new key stands in for the second entry under a key, and is seen from one side only. -/
theorem exists_impostor (hself : (object a).Equal s (.object a)) (ha : ¬ Distinct a) :
    ∃ b, (∀ e ∈ b, e ∈ a ∨ e.2 = .unit) ∧ (object a).Equal s (.object b) ∧
      ¬ (object b).Equal s (.object a) := by
  obtain ⟨front, k, v, rest, rfl, hv, hk⟩ : ∃ front k v rest, a = front ++ (k, v) :: rest ∧
      v.isAbsent = false ∧ k ∈ (present front).map Prod.fst := by
    by_contra hnone
    push Not at hnone
    exact ha (distinct_of_splits hnone)
  obtain ⟨new, hnew⟩ :=
    Infinite.exists_notMem_finset ((front ++ (k, v) :: rest).map Prod.fst).toFinset
  rw [List.mem_toFinset] at hnew
  have present_new : present (front ++ (new, .unit) :: rest) =
      present front ++ (new, .unit) :: present rest := by
    rw [present_append, present_cons rfl]
  refine ⟨front ++ (new, .unit) :: rest, fun e he => ?_, Equal.object_iff.mpr ⟨?_, fun e he => ?_⟩,
    fun h => ?_⟩
  · rw [List.mem_append, List.mem_cons] at he
    rcases he with he | rfl | he
    · exact .inl (List.mem_append_left _ he)
    · exact .inr rfl
    · exact .inl (List.mem_append_right _ (List.mem_cons_of_mem _ he))
  · rw [present_new, present_append, present_cons hv, List.length_append, List.length_append,
      List.length_cons, List.length_cons]
  · obtain ⟨w, hw, heq⟩ := (Equal.object_iff.mp hself).2 e he
    have hne : e.1 ≠ new := fun h => hnew (h ▸ List.mem_map_of_mem (mem_present.mp he).1)
    rw [findKey_shadowed hk] at hw
    refine ⟨w, ?_, heq⟩
    rw [← hw, findKey_append, findKey_append, Value.findKey, if_neg fun h => hne h.1.symm]
  · obtain ⟨w, hw, -⟩ := (Equal.object_iff.mp h).2 (new, .unit) (by rw [present_new]; simp)
    exact hnew (List.mem_map_of_mem (mem_present.mp (findKey_eq_some hw)).1)

/-! ## The laws -/

theorem Tidy.equal_self (hv : v.Tidy s) : v.Equal s v := hv.matches_self.equal_both.1

theorem Tidy.equal_symm (hv : v.Tidy s) (hw : w.Tidy s) (h : v.Equal s w) : w.Equal s v :=
  ((hv.equal_iff hw).mp h).equal_both.2

/-- Equality is transitive, and an equivalence on tidy values. Of objects with tidy values under
their keys, those with distinct keys are the only ones that equal themselves and that every such
object equals which they equal. -/
theorem equality_laws (s : Store) :
    (∀ u v w : Value, u.Equal s v → v.Equal s w → u.Equal s w) ∧
      Equivalence (fun v w : { v : Value // v.Tidy s } => v.1.Equal s w.1) ∧
      ∀ a, (∀ e ∈ a, e.2.Tidy s) → (Distinct a ↔
        (object a).Equal s (.object a) ∧ ∀ b, (∀ e ∈ b, e.2.Tidy s) →
          (object a).Equal s (.object b) → (object b).Equal s (.object a)) := by
  refine ⟨fun u v w => .trans, ⟨fun v => v.2.equal_self, fun {v w} => v.2.equal_symm w.2, .trans⟩,
    fun a ha => ⟨fun hd => ?_, fun ⟨hself, hsymm⟩ => ?_⟩⟩
  · have tidy : (object a).Tidy s := .object hd ha
    exact ⟨tidy.equal_self, fun b hb h => tidy.equal_symm (.object (hd.of_equal h) hb) h⟩
  · by_contra hd
    obtain ⟨b, hb, hab, hba⟩ := exists_impostor hself hd
    refine hba (hsymm b (fun e he => ?_) hab)
    rcases hb e he with he | he
    · exact ha e he
    · exact he ▸ .unit

namespace Cells

/-- Two cells with the same contents. -/
def store : Store := ⟨#[.int 1, .int 1], 0⟩

def first : List (String × Value) := [("a", .box ⟨0⟩), ("b", .null), ("a", .absent)]

def second : List (String × Value) := [("b", .null), ("c", .absent), ("a", .box ⟨1⟩)]

/-- A key with two values, which are the same. -/
def repeated : List (String × Value) := [("a", .int 1), ("a", .int 1)]

theorem tidy_box {i : Nat} (hi : i < 2) : (box ⟨i⟩).Tidy store := by
  refine .box hi ?_
  match i, hi with
  | 0, _ => exact .int 1
  | 1, _ => exact .int 1

theorem tidy_first : (object first).Tidy store := by
  refine .object (by decide +kernel) ?_
  simp only [first, List.forall_mem_cons]
  exact ⟨tidy_box (by decide), .null, .absent, List.forall_mem_nil _⟩

theorem tidy_second : (object second).Tidy store := by
  refine .object (by decide +kernel) ?_
  simp only [second, List.forall_mem_cons]
  exact ⟨.null, .absent, tidy_box (by decide), List.forall_mem_nil _⟩

end Cells

/-- Neither the order of keys nor which of the cells it is makes a difference. A repeated key does,
even with the same value. -/
theorem equality_laws_cells :
    (object Cells.first).Equal Cells.store (.object Cells.second) ∧
      (object Cells.second).Equal Cells.store (.object Cells.first) ∧
      ¬ ((object Cells.repeated).Equal Cells.store (.object Cells.repeated) ∧
        ∀ b, (∀ e ∈ b, e.2.Tidy Cells.store) →
          (object Cells.repeated).Equal Cells.store (.object b) →
            (object b).Equal Cells.store (.object Cells.repeated)) := by
  obtain ⟨trans, equivalence, distinct⟩ := equality_laws Cells.store
  have equal : (object Cells.first).Equal Cells.store (.object Cells.second) :=
    ⟨3, by decide +kernel⟩
  have tidy : ∀ e ∈ Cells.repeated, e.2.Tidy Cells.store := by
    simp only [Cells.repeated, List.forall_mem_cons]
    exact ⟨.int 1, .int 1, List.forall_mem_nil _⟩
  refine ⟨equal, ?_, fun h => ?_⟩
  · exact equivalence.symm (x := ⟨_, Cells.tidy_first⟩) (y := ⟨_, Cells.tidy_second⟩) equal
  · exact absurd ((distinct _ tidy).mpr h) (by decide +kernel)

end Value

end Marshal
