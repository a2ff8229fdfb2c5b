import Mathlib.Data.List.Perm.Subperm
import Mathlib.Data.List.Zip
import Marshal.Proofs.Conversion

/-!
# Equality of values

Two values are equal if they are found equal within some number of layers. Of values that are
finite and without "not a number", and whose objects have one value under each key, this says that
they match part by part (`Tidy.equal_iff`). A match can be had between values of different stores,
and it outlasts whatever is added to them.
-/

namespace Marshal

open Run

/-! ## How deep to compare -/

namespace Value

variable {s : Store} {v w : Value} {n m : Nat}

theorem all₂_iff {eq : Value → Value → Bool} : ∀ {vs ws : List Value},
    all₂ eq vs ws = true ↔ vs.length = ws.length ∧ ∀ x ∈ vs.zip ws, eq x.1 x.2 = true
  | [], [] => by simp [all₂]
  | [], _ :: _ => by simp [all₂]
  | _ :: _, [] => by simp [all₂]
  | v :: vs, w :: ws => by
      rw [all₂, Bool.and_eq_true, all₂_iff, List.zip_cons_cons, List.forall_mem_cons,
        List.length_cons, List.length_cons, Nat.add_right_cancel_iff, and_left_comm]

theorem all₂_mono {eq eq' : Value → Value → Bool} (h : ∀ v w, eq v w = true → eq' v w = true)
    {vs ws : List Value} (hvs : all₂ eq vs ws = true) : all₂ eq' vs ws = true := by
  rw [all₂_iff] at hvs ⊢
  exact ⟨hvs.1, fun x hx => h _ _ (hvs.2 x hx)⟩

/-- As many entries, and each one of the first has its counterpart under its key. -/
theorem sameEntries_iff {eq : Value → Value → Bool} {a b : List (String × Value)} :
    sameEntries eq a b = true ↔ (present a).length = (present b).length ∧
      ∀ e ∈ present a, ∃ w, findKey e.1 b = some w ∧ eq w e.2 = true := by
  rw [sameEntries, Bool.and_eq_true, beq_iff_eq, List.all_eq_true]
  refine and_congr_right fun _ => forall₂_congr fun (k, v) _ => ?_
  dsimp only
  cases findKey k b <;> simp

theorem sameEntries_mono {eq eq' : Value → Value → Bool}
    (h : ∀ v w, eq v w = true → eq' v w = true) {a b : List (String × Value)}
    (hab : sameEntries eq a b = true) : sameEntries eq' a b = true := by
  rw [sameEntries_iff] at hab ⊢
  refine ⟨hab.1, fun e he => ?_⟩
  obtain ⟨w, hw, heq⟩ := hab.2 e he
  exact ⟨w, hw, h w e.2 heq⟩

/-- Deeper comparison revokes nothing. -/
theorem equalWithin_succ :
    ∀ {n : Nat} {v w : Value}, equalWithin s n v w = true → equalWithin s (n + 1) v w = true
  | 0, _, _, h => by cases h
  | n + 1, v, w, h => by
      have deeper : ∀ v w, equalWithin s n v w = true → equalWithin s (n + 1) v w = true :=
        fun v w => equalWithin_succ
      unfold equalWithin at h
      split at h
      case h_8 => exact all₂_mono deeper h
      case h_9 => exact sameEntries_mono deeper h
      case h_10 =>
        rw [Bool.and_eq_true] at h
        rw [equalWithin, Bool.and_eq_true]
        exact ⟨h.1, all₂_mono deeper h.2⟩
      case h_11 =>
        rw [Bool.or_eq_true] at h
        rw [equalWithin, Bool.or_eq_true]
        exact h.imp id (deeper _ _)
      all_goals first | exact h | cases h

theorem equalWithin_mono (hnm : n ≤ m) (h : equalWithin s n v w = true) :
    equalWithin s m v w = true := by
  induction hnm with
  | refl => exact h
  | step _ ih => exact equalWithin_succ ih

/-- For several equalities one depth is enough. -/
theorem exists_depth : ∀ {xs : List (Value × Value)}, (∀ x ∈ xs, x.1.Equal s x.2) →
    ∃ n, ∀ x ∈ xs, equalWithin s n x.1 x.2 = true
  | [], _ => ⟨0, by simp⟩
  | x :: xs, h => by
      obtain ⟨n, hn⟩ := h x (List.mem_cons_self ..)
      obtain ⟨m, hm⟩ := exists_depth fun y hy => h y (List.mem_cons_of_mem _ hy)
      refine ⟨max n m, fun y hy => ?_⟩
      rcases List.mem_cons.mp hy with rfl | hy
      · exact equalWithin_mono (Nat.le_max_left ..) hn
      · exact equalWithin_mono (Nat.le_max_right ..) (hm y hy)

/-! ## Keys that differ -/

variable {s' t t' : Store} {u : Value} {k k' : String}
  {entries pre post a b : List (String × Value)}

/-- No two present entries are under one key. -/
def Distinct (entries : List (String × Value)) : Prop := ((present entries).map Prod.fst).Nodup

instance : Decidable (Distinct entries) :=
  inferInstanceAs (Decidable ((present entries).map Prod.fst).Nodup)

theorem findKey_isSome_iff :
    (findKey k entries).isSome = true ↔ k ∈ (present entries).map Prod.fst := by
  constructor
  · intro h
    obtain ⟨v, hv⟩ := Option.isSome_iff_exists.mp h
    exact List.mem_map_of_mem (findKey_eq_some hv)
  · intro h
    obtain ⟨⟨k, v⟩, hkv, rfl⟩ := List.mem_map.mp h
    exact findKey_isSome hkv

theorem findKey_eq_none (h : ∀ v, (k, v) ∉ present entries) : findKey k entries = none := by
  cases hf : findKey k entries with
  | none => rfl
  | some v => exact absurd (findKey_eq_some hf) (h v)

theorem Distinct.findKey_eq (h : Distinct entries) (hv : (k, v) ∈ present entries) :
    findKey k entries = some v := by
  obtain ⟨w, hw⟩ := Option.isSome_iff_exists.mp (findKey_isSome hv)
  cases List.inj_on_of_nodup_map h hv (findKey_eq_some hw) rfl
  exact hw

theorem findKey_append : ∀ {front rest : List (String × Value)},
    findKey k (front ++ rest) = (findKey k front).or (findKey k rest)
  | [], _ => by simp [Value.findKey]
  | e :: front, rest => by
      rw [List.cons_append, Value.findKey, Value.findKey]
      split
      · rfl
      · exact findKey_append

/-- Under the key stands what was put there. -/
theorem findKey_middle (hpre : ∀ u, (k, u) ∉ present pre) (hpost : ∀ u, (k, u) ∉ present post) :
    findKey k (pre ++ (k, v) :: post) = if v.isAbsent then none else some v := by
  rw [findKey_append, findKey_eq_none hpre, Option.none_or, Value.findKey]
  cases hv : v.isAbsent with
  | true => simp [findKey_eq_none hpost]
  | false => simp

theorem findKey_other (hk : k' ≠ k) :
    findKey k' (pre ++ (k, u) :: post) = findKey k' (pre ++ (k, v) :: post) := by
  rw [findKey_append, findKey_append, Value.findKey, Value.findKey, if_neg fun h => hk h.1.symm,
    if_neg fun h => hk h.1.symm]

/-- Putting another value under a key that is there keeps the keys apart. -/
theorem Distinct.replace (h : Distinct (pre ++ (k, v) :: post)) (hv : v.isAbsent = false) :
    Distinct (pre ++ (k, u) :: post) := by
  rw [Distinct, present_append, present_cons hv] at h
  rw [Distinct, present_append]
  refine h.sublist ?_
  cases hu : u.isAbsent with
  | false =>
      rw [present_cons hu, List.map_append, List.map_append]
      exact .refl _
  | true =>
      rw [show present ((k, u) :: post) = present post by simp [present, hu]]
      exact ((List.sublist_cons_self ..).append_left _).map _

theorem Keyed.distinct {pairs : List (String × Value)} (h : Keyed entries pairs)
    (hp : (pairs.map Prod.fst).Nodup) : Distinct entries :=
  (h.map _).nodup_iff.mpr (hp.sublist (List.filter_sublist.map _))

theorem Keyed.findKey_eq_none {pairs : List (String × Value)} (h : Keyed entries pairs)
    (hk : k ∉ pairs.map Prod.fst) : findKey k entries = none :=
  Value.findKey_eq_none fun _ hv =>
    hk (List.mem_map_of_mem (mem_present.mp (h.mem_iff.mp hv)).1)

/-- Under each key, both objects have values of one row, or none. -/
theorem Keyed.lookups {names : List String} {vs ws : List Value} (hn : names.Nodup)
    (hv : vs.length = names.length) (hw : ws.length = vs.length) (ha : Keyed a (names.zip vs))
    (hb : Keyed b (names.zip ws)) (habsent : ∀ x ∈ vs.zip ws, x.1.isAbsent = x.2.isAbsent) :
    Distinct a ∧ Distinct b ∧ (∀ k, (findKey k a).isSome = (findKey k b).isSome) ∧
      ∀ k v w, findKey k a = some v → findKey k b = some w → (v, w) ∈ vs.zip ws := by
  obtain ⟨rows, rfl, rfl, rfl⟩ := exists_triples hv hw
  rw [List.zip_map', List.forall_mem_map] at habsent
  rw [List.zip_map'] at ha hb
  have hna : ((rows.map fun r => (r.1, r.2.1)).map Prod.fst).Nodup := by rwa [List.map_map]
  have hnb : ((rows.map fun r => (r.1, r.2.2)).map Prod.fst).Nodup := by rwa [List.map_map]
  have row : ∀ r ∈ rows, findKey r.1 a = (if r.2.1.isAbsent then none else some r.2.1) ∧
      findKey r.1 b = if r.2.1.isAbsent then none else some r.2.2 := by
    intro r hr
    refine ⟨ha.findKey_eq hna (List.mem_map_of_mem hr), ?_⟩
    rw [habsent r hr]
    exact hb.findKey_eq hnb (List.mem_map_of_mem hr)
  have other : ∀ k, k ∉ rows.map (·.1) → findKey k a = none ∧ findKey k b = none := fun k hk =>
    ⟨ha.findKey_eq_none (by rwa [List.map_map]), hb.findKey_eq_none (by rwa [List.map_map])⟩
  refine ⟨ha.distinct hna, hb.distinct hnb, fun k => ?_, fun k v w hv hw => ?_⟩
  · by_cases hk : k ∈ rows.map (·.1)
    · obtain ⟨r, hr, rfl⟩ := List.mem_map.mp hk
      rw [(row r hr).1, (row r hr).2]
      split <;> rfl
    · rw [(other k hk).1, (other k hk).2]
  · by_cases hk : k ∈ rows.map (·.1)
    · obtain ⟨r, hr, rfl⟩ := List.mem_map.mp hk
      rw [(row r hr).1, Option.ite_none_left_eq_some] at hv
      rw [(row r hr).2, if_neg hv.1] at hw
      cases hv.2
      cases hw
      rw [List.zip_map']
      exact List.mem_map_of_mem (f := fun r : String × Value × Value => (r.2.1, r.2.2)) hr
    · rw [(other k hk).1] at hv
      cases hv

/-- As many keys, all of which are keys of the other, are the same keys. -/
theorem Distinct.keys_perm (ha : Distinct a) (hlen : (present a).length = (present b).length)
    (hsub : ∀ k, (findKey k a).isSome = true → (findKey k b).isSome = true) :
    ((present a).map Prod.fst).Perm ((present b).map Prod.fst) := by
  have subset : (present a).map Prod.fst ⊆ (present b).map Prod.fst := fun k hk =>
    findKey_isSome_iff.mp (hsub k (findKey_isSome_iff.mpr hk))
  exact (ha.subperm subset).perm_of_length_le (by simp [hlen])

theorem Distinct.same_keys (ha : Distinct a) (hlen : (present a).length = (present b).length)
    (hsub : ∀ k, (findKey k a).isSome = true → (findKey k b).isSome = true) (k : String) :
    (findKey k a).isSome = (findKey k b).isSome := by
  rw [Bool.eq_iff_iff, findKey_isSome_iff, findKey_isSome_iff]
  exact (ha.keys_perm hlen hsub).mem_iff

/-- The same keys are as many. -/
theorem Distinct.length_eq (ha : Distinct a) (hb : Distinct b)
    (hkeys : ∀ k, (findKey k a).isSome = (findKey k b).isSome) :
    (present a).length = (present b).length := by
  have perm : ((present a).map Prod.fst).Perm ((present b).map Prod.fst) :=
    (List.perm_ext_iff_of_nodup ha hb).mpr fun k => by
      rw [← findKey_isSome_iff, ← findKey_isSome_iff, hkeys]
  simpa using perm.length_eq

/-! ## Equal parts -/

namespace Equal

theorem array {vs ws : List Value} (hlen : vs.length = ws.length)
    (h : ∀ x ∈ vs.zip ws, x.1.Equal s x.2) : (array vs).Equal s (array ws) := by
  obtain ⟨n, hn⟩ := exists_depth h
  exact ⟨n + 1, all₂_iff.mpr ⟨hlen, hn⟩⟩

theorem block {tag : UInt32} {vs ws : List Value} (hlen : vs.length = ws.length)
    (h : ∀ x ∈ vs.zip ws, x.1.Equal s x.2) : (block tag vs).Equal s (block tag ws) := by
  obtain ⟨n, hn⟩ := exists_depth h
  exact ⟨n + 1, by simpa [equalWithin] using all₂_iff.mpr ⟨hlen, hn⟩⟩

theorem box {b b' : BoxId} (h : (s.read b).Equal s (s.read b')) :
    (Value.box b).Equal s (.box b') := by
  obtain ⟨n, hn⟩ := h
  exact ⟨n + 1, by simp [equalWithin, hn]⟩

/-- Objects are equal if there are as many entries and each one of the first has its counterpart
under its key. -/
theorem object_iff : (Value.object a).Equal s (.object b) ↔
    (present a).length = (present b).length ∧
      ∀ e ∈ present a, ∃ w, findKey e.1 b = some w ∧ w.Equal s e.2 := by
  constructor
  · rintro ⟨_ | n, h⟩
    · cases h
    · obtain ⟨hlen, h⟩ := sameEntries_iff.mp h
      refine ⟨hlen, fun e he => ?_⟩
      obtain ⟨w, hw, heq⟩ := h e he
      exact ⟨w, hw, n, heq⟩
  · rintro ⟨hlen, h⟩
    have pairs : ∀ x ∈ (present a).map fun e => ((findKey e.1 b).getD .absent, e.2),
        x.1.Equal s x.2 := by
      rw [List.forall_mem_map]
      intro e he
      obtain ⟨w, hw, heq⟩ := h e he
      rwa [hw]
    obtain ⟨n, hn⟩ := exists_depth pairs
    rw [List.forall_mem_map] at hn
    refine ⟨n + 1, sameEntries_iff.mpr ⟨hlen, fun e he => ?_⟩⟩
    obtain ⟨w, hw, -⟩ := h e he
    have found := hn e he
    rw [hw] at found
    exact ⟨w, hw, found⟩

/-- Objects are equal if they have the same keys, with equal values under them. -/
theorem of_keys (ha : Distinct a) (hb : Distinct b)
    (hkeys : ∀ k, (findKey k a).isSome = (findKey k b).isSome)
    (h : ∀ k v w, findKey k a = some v → findKey k b = some w → w.Equal s v) :
    (Value.object a).Equal s (.object b) := by
  refine object_iff.mpr ⟨ha.length_eq hb hkeys, fun e he => ?_⟩
  obtain ⟨w, hw⟩ : ∃ w, findKey e.1 b = some w := by
    rw [← Option.isSome_iff_exists, ← hkeys]
    exact findKey_isSome he
  exact ⟨w, hw, h e.1 e.2 w (ha.findKey_eq he) hw⟩

/-- Objects are equal if equal values are under the same keys. -/
theorem object {names : List String} {vs ws : List Value} (hn : names.Nodup)
    (hv : vs.length = names.length) (hw : ws.length = vs.length) (ha : Keyed a (names.zip vs))
    (hb : Keyed b (names.zip ws)) (habsent : ∀ x ∈ vs.zip ws, x.1.isAbsent = x.2.isAbsent)
    (h : ∀ x ∈ vs.zip ws, x.2.Equal s x.1) : (Value.object a).Equal s (.object b) := by
  obtain ⟨distinct, distinct', hkeys, rows⟩ := Keyed.lookups hn hv hw ha hb habsent
  exact of_keys distinct distinct' hkeys fun k v w hv hw => h (v, w) (rows k v w hv hw)

theorem tagged {name : String} (hk : Keyed a [("tag", .str name), ("value", v)])
    (hk' : Keyed b [("tag", .str name), ("value", w)]) (habsent : v.isAbsent = w.isAbsent)
    (h : w.Equal s v) : (Value.object a).Equal s (.object b) := by
  have distinct : ["tag", "value"].Nodup := by simp
  have two (v : Value) : [Value.str name, v].length = ["tag", "value"].length := rfl
  have tag : (Value.str name).Equal s (.str name) := ⟨1, by simp [equalWithin]⟩
  have items : ∀ x ∈ [Value.str name, v].zip [.str name, w],
      x.1.isAbsent = x.2.isAbsent ∧ x.2.Equal s x.1 := by simp [habsent, tag, h]
  exact object distinct (two v) (two w) hk hk' (fun x hx => (items x hx).1)
    fun x hx => (items x hx).2

end Equal

/-- Converting under a key converts one present value, or nothing. -/
theorem Distinct.atKey (h : Distinct entries) (f : Value → Run Value) :
    findKey k entries = none ∧ entries.mapM (Run.atKey f k) = pure entries ∨
      ∃ pre v post, entries = pre ++ (k, v) :: post ∧ v.isAbsent = false ∧
        (∀ u, (k, u) ∉ present pre) ∧ (∀ u, (k, u) ∉ present post) ∧
        entries.mapM (Run.atKey f k) = f v >>= fun u => pure (pre ++ (k, u) :: post) := by
  cases hf : findKey k entries with
  | none =>
      refine .inl ⟨rfl, mapM_atKey_of_absent f fun v hv => ?_⟩
      rw [h.findKey_eq hv] at hf
      cases hf
  | some v =>
      have keyed : Keyed entries (present entries) := keyed_present.symm
      have hv := findKey_eq_some hf
      obtain ⟨front, rest, split⟩ := List.append_of_mem hv
      obtain ⟨pre, post, rfl, hpre, hpost, -⟩ :=
        Keyed.split (split ▸ keyed) (split ▸ h) (mem_present.mp hv).2
      exact .inr ⟨pre, v, post, rfl, (mem_present.mp hv).2, hpre, hpost,
        Run.mapM_atKey f (mem_present.mp hv).2 hpre hpost⟩

/-! ## Matching values -/

/-- The value is finite and without "not a number", its cells are there, and each of its objects
has at most one present entry under a key. -/
inductive Tidy (s : Store) : Value → Prop
  | absent : Tidy s .absent
  | null : Tidy s .null
  | unit : Tidy s .unit
  | bool (b : Bool) : Tidy s (.bool b)
  | int (n : Int64) : Tidy s (.int n)
  | float {x : Binary64} : x.isNaN = false → Tidy s (.float x)
  | str (text : String) : Tidy s (.str text)
  | array {vs : List Value} : (∀ v ∈ vs, Tidy s v) → Tidy s (.array vs)
  | object {entries : List (String × Value)} : Distinct entries → (∀ e ∈ entries, Tidy s e.2) →
      Tidy s (.object entries)
  | block {tag : UInt32} {vs : List Value} : (∀ v ∈ vs, Tidy s v) → Tidy s (.block tag vs)
  | box {b : BoxId} : b.index < s.boxes.size → Tidy s (s.read b) → Tidy s (.box b)
  | fn (f : Closure) : Tidy s (.fn f)

/-- A value of the first store and one of the second are alike in all their parts. -/
inductive Matches (s t : Store) : Value → Value → Prop
  | absent : Matches s t .absent .absent
  | null : Matches s t .null .null
  | unit : Matches s t .unit .unit
  | bool (b : Bool) : Matches s t (.bool b) (.bool b)
  | int (n : Int64) : Matches s t (.int n) (.int n)
  | float {x y : Binary64} : x.numEq y = true → Matches s t (.float x) (.float y)
  | str (text : String) : Matches s t (.str text) (.str text)
  | array {vs ws : List Value} : vs.length = ws.length →
      (∀ x ∈ vs.zip ws, Matches s t x.1 x.2) → Matches s t (.array vs) (.array ws)
  | object {a b : List (String × Value)} : Distinct a → Distinct b →
      (∀ k, (findKey k a).isSome = (findKey k b).isSome) →
      (∀ k v w, findKey k a = some v → findKey k b = some w → Matches s t v w) →
      Matches s t (.object a) (.object b)
  | block {tag : UInt32} {vs ws : List Value} : vs.length = ws.length →
      (∀ x ∈ vs.zip ws, Matches s t x.1 x.2) → Matches s t (.block tag vs) (.block tag ws)
  | box {b c : BoxId} : b.index < s.boxes.size → c.index < t.boxes.size →
      Matches s t (s.read b) (t.read c) → Matches s t (.box b) (.box c)
  | fn {f g : Closure} : f.token = g.token → Matches s t (.fn f) (.fn g)

/-- What holds of the pairs of two lists holds of the pairs the other way round. -/
theorem zip_swap {vs ws : List Value} {R : Value → Value → Prop} (h : ∀ x ∈ vs.zip ws, R x.2 x.1) :
    ∀ x ∈ ws.zip vs, R x.1 x.2 := by
  intro x hx
  rw [← List.zip_swap] at hx
  obtain ⟨y, hy, rfl⟩ := List.mem_map.mp hx
  exact h y hy

namespace Matches

theorem isAbsent_eq (h : Matches s t v w) : v.isAbsent = w.isAbsent := by cases h <;> rfl

/-- New cells change nothing. -/
theorem later (h : Matches s t v w) (hs : s.Within s') (ht : t.Within t') : Matches s' t' v w := by
  induction h with
  | absent | null | unit | bool | int | str => constructor
  | float h => exact .float h
  | array hlen _ ih => exact .array hlen ih
  | object ha hb hkeys _ ih => exact .object ha hb hkeys ih
  | block hlen _ ih => exact .block hlen ih
  | box hb hc _ ih =>
      obtain ⟨hb, readb⟩ := hs.read hb
      obtain ⟨hc, readc⟩ := ht.read hc
      exact .box hb hc (by rwa [readb, readc])
  | fn h => exact .fn h

theorem symm (h : Matches s t v w) : Matches t s w v := by
  induction h with
  | absent | null | unit | bool | int | str => constructor
  | float h => exact .float (Binary64.numEq_comm _ _ ▸ h)
  | array hlen _ ih => exact .array hlen.symm (zip_swap ih)
  | object ha hb hkeys _ ih =>
      exact .object hb ha (fun k => (hkeys k).symm) fun k v w hv hw => ih k w v hw hv
  | block hlen _ ih => exact .block hlen.symm (zip_swap ih)
  | box hb hc _ ih => exact .box hc hb ih
  | fn h => exact .fn h.symm

/-- Objects match if matching values are under the same keys. -/
theorem keyed {names : List String} {vs ws : List Value} (hn : names.Nodup)
    (hv : vs.length = names.length) (hw : ws.length = vs.length) (ha : Keyed a (names.zip vs))
    (hb : Keyed b (names.zip ws)) (h : ∀ x ∈ vs.zip ws, Matches s t x.1 x.2) :
    Matches s t (.object a) (.object b) := by
  obtain ⟨distinct, distinct', hkeys, rows⟩ :=
    Keyed.lookups hn hv hw ha hb fun x hx => (h x hx).isAbsent_eq
  exact .object distinct distinct' hkeys fun k v w hv hw => h (v, w) (rows k v w hv hw)

end Matches

/-! ### Equality -/

/-- A tidy value matches itself. -/
theorem Tidy.matches_self (h : v.Tidy s) : Matches s s v v := by
  have same {vs : List Value} (ih : ∀ v ∈ vs, Matches s s v v) :
      ∀ x ∈ vs.zip vs, Matches s s x.1 x.2 := by
    intro x hx
    rw [show vs.zip vs = vs.map fun v => (v, v) by
      simpa using List.zip_map' (f := id) (g := id) (l := vs)] at hx
    obtain ⟨v, hv, rfl⟩ := List.mem_map.mp hx
    exact ih v hv
  induction h with
  | absent | null | unit | bool | int | str => constructor
  | float hx => exact .float (Binary64.numEq_self hx)
  | array _ ih => exact .array rfl (same ih)
  | object hd _ ih =>
      refine .object hd hd (fun _ => rfl) fun k v w hv hw => ?_
      cases hv.symm.trans hw
      exact ih _ (mem_present.mp (findKey_eq_some hv)).1
  | block _ ih => exact .block rfl (same ih)
  | box hb _ ih => exact .box hb hb ih
  | fn f => exact .fn rfl

theorem Tidy.of_findKey (h : Tidy s (.object entries)) (hv : findKey k entries = some v) :
    v.Tidy s := by
  cases h with
  | object _ h => exact h _ (mem_present.mp (findKey_eq_some hv)).1

/-- Tidy values that are found equal match. -/
theorem Tidy.matches : ∀ {n : Nat} {v w : Value}, v.Tidy s → w.Tidy s →
    equalWithin s n v w = true → Matches s s v w
  | 0, _, _, _, _, h => by cases h
  | n + 1, v, w, hv, hw, h => by
      have items {vs ws : List Value} (hv : ∀ v ∈ vs, v.Tidy s) (hw : ∀ w ∈ ws, w.Tidy s)
          (h : ∀ x ∈ vs.zip ws, equalWithin s n x.1 x.2 = true) :
          ∀ x ∈ vs.zip ws, Matches s s x.1 x.2 := fun x hx =>
        Tidy.matches (hv _ (List.of_mem_zip hx).1) (hw _ (List.of_mem_zip hx).2) (h x hx)
      unfold equalWithin at h
      split at h
      case h_1 => exact .absent
      case h_2 => exact .null
      case h_3 => exact .unit
      case h_4 => cases eq_of_beq h; exact .bool _
      case h_5 => cases eq_of_beq h; exact .int _
      case h_6 => exact .float h
      case h_7 => cases eq_of_beq h; exact .str _
      case h_8 =>
        obtain ⟨hlen, h⟩ := all₂_iff.mp h
        cases hv with | array hv => cases hw with | array hw => exact .array hlen (items hv hw h)
      case h_9 a b =>
        obtain ⟨hlen, h⟩ := sameEntries_iff.mp h
        have counterpart : ∀ k v, findKey k a = some v →
            ∃ w, findKey k b = some w ∧ equalWithin s n w v = true :=
          fun k v hf => h (k, v) (findKey_eq_some hf)
        cases id hv with | object ha _ => cases id hw with | object hb _ =>
        refine .object ha hb (ha.same_keys hlen fun k hk => ?_) fun k v w hf hf' => ?_
        · obtain ⟨v, hf⟩ := Option.isSome_iff_exists.mp hk
          obtain ⟨w, hf', -⟩ := counterpart k v hf
          rw [hf']
          rfl
        · obtain ⟨w', hf'', heq⟩ := counterpart k v hf
          cases hf'.symm.trans hf''
          exact (Tidy.matches (hw.of_findKey hf') (hv.of_findKey hf) heq).symm
      case h_10 =>
        rw [Bool.and_eq_true] at h
        cases eq_of_beq h.1
        obtain ⟨hlen, h⟩ := all₂_iff.mp h.2
        cases hv with | block hv => cases hw with | block hw => exact .block hlen (items hv hw h)
      case h_11 b c =>
        cases hv with | box hb hv => cases hw with | box hc hw =>
        rcases Bool.or_eq_true _ _ ▸ h with h | h
        · cases eq_of_beq h
          exact .box hb hb hv.matches_self
        · exact .box hb hc (Tidy.matches hv hw h)
      case h_12 => exact .fn (eq_of_beq h)
      all_goals cases h

/-- What matches is equal, also the other way round. -/
theorem Matches.equal_both (h : Matches s s v w) : v.Equal s w ∧ w.Equal s v := by
  induction h with
  | absent | null | unit => exact ⟨⟨1, rfl⟩, 1, rfl⟩
  | bool | int | str => exact ⟨⟨1, by simp [equalWithin]⟩, 1, by simp [equalWithin]⟩
  | float h => exact ⟨⟨1, h⟩, 1, (Binary64.numEq_comm _ _).trans h⟩
  | array hlen _ ih =>
      exact ⟨.array hlen fun x hx => (ih x hx).1,
        .array hlen.symm (zip_swap fun x hx => (ih x hx).2)⟩
  | object ha hb hkeys _ ih =>
      exact ⟨.of_keys ha hb hkeys fun k v w hv hw => (ih k v w hv hw).2,
        .of_keys hb ha (fun k => (hkeys k).symm) fun k v w hv hw => (ih k w v hw hv).1⟩
  | block hlen _ ih =>
      exact ⟨.block hlen fun x hx => (ih x hx).1,
        .block hlen.symm (zip_swap fun x hx => (ih x hx).2)⟩
  | box _ _ _ ih => exact ⟨.box ih.1, .box ih.2⟩
  | fn h => exact ⟨⟨1, by simp [equalWithin, h]⟩, 1, by simp [equalWithin, h]⟩

/-- Equality of tidy values is a match of all their parts. -/
theorem Tidy.equal_iff (hv : v.Tidy s) (hw : w.Tidy s) : v.Equal s w ↔ Matches s s v w :=
  ⟨fun ⟨_, h⟩ => hv.matches hw h, fun h => h.equal_both.1⟩

end Value

end Marshal
