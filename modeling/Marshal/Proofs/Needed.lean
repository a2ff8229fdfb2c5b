import Marshal.Proofs.Judgement

/-!
# The bodies that are needed

`FixTable.needed` walks over a table with a stack and a bound on its turns. The
bound suffices: a turn takes one type off the stack and puts the targets of a body
on it only once for each type, so the stack with the targets of all entries not
seen yet gets shorter with every turn. What is visited is thus exactly what is led
to from the roots (`mem_needed`).
-/

namespace Marshal

open Converter Relation

namespace FixTable

/-- The table as contents by id. -/
def contents (t : FixTable) : Contents := fun u => (t.find? u).map Converter.content

variable (t : FixTable) {turns : Nat} {stack seen : List TyId} {ty u v : TyId}

/-- The targets of the body of a type. -/
def next (ty : TyId) : List TyId := ((t.find? ty).map Converter.targets).getD []

theorem visit_cons_seen (h : ty ∈ seen) :
    t.visit (turns + 1) (ty :: stack) seen = t.visit turns stack seen := by
  rw [visit, if_pos (List.contains_iff_mem.mpr h)]

theorem visit_cons_new (h : ty ∉ seen) : t.visit (turns + 1) (ty :: stack) seen =
    t.visit turns ((t.next ty).reverse ++ stack) (seen ++ [ty]) := by
  rw [visit, if_neg (by simpa using h)]
  rfl

theorem mem_next : u ∈ t.next ty ↔ ∃ c, t.contents ty = some c ∧ u ∈ (bare c).targets := by
  unfold next contents
  cases t.find? ty with
  | none => simp
  | some c =>
      have : (bare c.content).targets = c.targets := targets_strip c
      simp [this]

/-- The walk forgets nothing. -/
theorem subset_visit : ∀ (turns : Nat) (stack seen : List TyId), seen ⊆ t.visit turns stack seen
  | 0, _, _ => fun _ h => h
  | _ + 1, [], _ => fun _ h => h
  | turns + 1, ty :: stack, seen => by
      by_cases h : ty ∈ seen
      · rw [visit_cons_seen t h]
        exact subset_visit turns stack seen
      · rw [visit_cons_new t h]
        exact fun u hu => subset_visit turns _ _ (List.mem_append_left _ hu)

/-- What is visited was there or is led to from the stack. -/
theorem visit_sound : ∀ (turns : Nat) (stack seen : List TyId), ∀ u ∈ t.visit turns stack seen,
    u ∈ seen ∨ ∃ r ∈ stack, t.contents.Leads r u
  | 0, _, _, _, h => .inl h
  | _ + 1, [], _, _, h => .inl h
  | turns + 1, ty :: stack, seen, u, hu => by
      by_cases h : ty ∈ seen
      · rw [visit_cons_seen t h] at hu
        refine (visit_sound turns stack seen u hu).imp_right ?_
        exact fun ⟨r, hr, hl⟩ => ⟨r, List.mem_cons_of_mem _ hr, hl⟩
      · rw [visit_cons_new t h] at hu
        rcases visit_sound turns _ _ u hu with hu | ⟨r, hr, hl⟩
        · rcases List.mem_append.mp hu with hu | hu
          · exact .inl hu
          · cases List.mem_singleton.mp hu
            exact .inr ⟨_, List.mem_cons_self .., .refl⟩
        · rcases List.mem_append.mp hr with hr | hr
          · refine .inr ⟨ty, List.mem_cons_self .., .head ?_ hl⟩
            exact (mem_next t).mp (List.mem_reverse.mp hr)
          · exact .inr ⟨r, List.mem_cons_of_mem _ hr, hl⟩

/-- How many targets the entries have that were not seen. -/
def weight (seen : List TyId) : List (TyId × Converter) → Nat
  | [] => 0
  | (u, c) :: entries => (if u ∈ seen then 0 else c.targets.length) + weight seen entries

theorem weight_append_le (seen : List TyId) (ty : TyId) :
    ∀ entries, weight (seen ++ [ty]) entries ≤ weight seen entries
  | [] => le_refl _
  | (u, c) :: entries => by
      have ih := weight_append_le seen ty entries
      simp only [weight, List.mem_append, List.mem_singleton]
      by_cases h : u ∈ seen
      · simpa [h] using ih
      · by_cases h' : u = ty
        · simp only [h', or_true, if_true]; omega
        · simpa [h, h'] using ih

/-- Seeing a type takes its targets out of the weight. -/
theorem weight_append (h : ty ∉ seen) :
    ∀ {entries : List (TyId × Converter)} {c : Converter}, entries.lookup ty = some c →
      weight (seen ++ [ty]) entries + c.targets.length ≤ weight seen entries
  | (u, d) :: entries, c, hc => by
      rw [List.lookup_cons] at hc
      simp only [weight, List.mem_append, List.mem_singleton]
      by_cases hu : u = ty
      · subst hu
        simp only [beq_self_eq_true, Option.some.injEq] at hc
        subst hc
        have := weight_append_le seen u entries
        simp only [or_true, if_true, h, if_false]
        omega
      · rw [beq_false_of_ne fun h => hu h.symm] at hc
        have ih := weight_append h (c := c) hc
        simp only [hu, or_false]
        omega

theorem weight_next (h : ty ∉ seen) :
    weight (seen ++ [ty]) t.entries + (t.next ty).length ≤ weight seen t.entries := by
  unfold next
  cases hc : t.find? ty with
  | none => simpa using weight_append_le seen ty t.entries
  | some c => exact weight_append h hc

/-- With turns enough, the walk visits all of the stack and is closed. -/
theorem visit_complete : ∀ (turns : Nat) (stack seen : List TyId),
    stack.length + weight seen t.entries < turns →
    (∀ u ∈ seen, ∀ v ∈ t.next u, v ∈ seen ∨ v ∈ stack) →
      (∀ u ∈ stack, u ∈ t.visit turns stack seen) ∧
        ∀ u ∈ t.visit turns stack seen, ∀ v ∈ t.next u, v ∈ t.visit turns stack seen
  | 0, _, _, h, _ => absurd h (Nat.not_lt_zero _)
  | _ + 1, [], seen, _, hc => by
      refine ⟨by simp, fun u hu v hv => ?_⟩
      simpa [visit] using hc u hu v hv
  | turns + 1, ty :: stack, seen, hlt, hc => by
      simp only [List.length_cons] at hlt
      by_cases h : ty ∈ seen
      · rw [visit_cons_seen t h]
        obtain ⟨hs, hcl⟩ := visit_complete turns stack seen (by omega) fun u hu v hv => by
          rcases hc u hu v hv with hv | hv
          · exact .inl hv
          · rcases List.mem_cons.mp hv with rfl | hv
            · exact .inl h
            · exact .inr hv
        refine ⟨fun u hu => ?_, hcl⟩
        rcases List.mem_cons.mp hu with rfl | hu
        · exact subset_visit t turns stack seen h
        · exact hs u hu
      · rw [visit_cons_new t h]
        have hw := weight_next t h
        obtain ⟨hs, hcl⟩ := visit_complete turns ((t.next ty).reverse ++ stack) (seen ++ [ty])
          (by simp only [List.length_append, List.length_reverse]; omega) fun u hu v hv => by
            rcases List.mem_append.mp hu with hu | hu
            · rcases hc u hu v hv with hv | hv
              · exact .inl (List.mem_append_left _ hv)
              · rcases List.mem_cons.mp hv with rfl | hv
                · exact .inl (by simp)
                · exact .inr (List.mem_append_right _ hv)
            · cases List.mem_singleton.mp hu
              exact .inr (List.mem_append_left _ (List.mem_reverse.mpr hv))
        refine ⟨fun u hu => ?_, hcl⟩
        rcases List.mem_cons.mp hu with rfl | hu
        · exact subset_visit t turns _ _ (by simp)
        · exact hs u (List.mem_append_right _ hu)

theorem foldl_weight : ∀ (entries : List (TyId × Converter)) (n : Nat),
    entries.foldl (fun n e => n + e.2.targets.length) n = n + weight [] entries
  | [], _ => rfl
  | (u, c) :: entries, n => by simp [weight, foldl_weight entries, Nat.add_assoc]

/-- What is needed is what is led to from the roots. -/
theorem mem_needed {roots : List TyId} :
    u ∈ t.needed roots ↔ ∃ r ∈ roots, t.contents.Leads r u := by
  unfold needed
  split
  · next h => simp [List.isEmpty_iff.mp h]
  · obtain ⟨hs, hcl⟩ := visit_complete t (t.turns roots) roots.reverse []
      (by rw [turns, foldl_weight, List.length_reverse]; omega) (by simp)
    constructor
    · intro hu
      rcases visit_sound t _ _ _ u hu with h | ⟨r, hr, hl⟩
      · cases h
      · exact ⟨r, List.mem_reverse.mp hr, hl⟩
    · rintro ⟨r, hr, hl⟩
      induction hl with
      | refl => exact hs r (List.mem_reverse.mpr hr)
      | tail _ hb ih => exact hcl _ ih _ ((mem_next t).mpr hb)

/-! ## Putting entries -/

theorem lookup_insertEntry (ty : TyId) (c : Converter) :
    ∀ (entries : List (TyId × Converter)) (u : TyId),
      (insertEntry ty c entries).lookup u = if u = ty then some c else entries.lookup u
  | [], u => by
      by_cases h : u = ty
      · simp [insertEntry, h]
      · rw [insertEntry, List.lookup_cons, beq_false_of_ne h, if_neg h]
  | (v, d) :: rest, u => by
      unfold insertEntry
      by_cases hu : u = ty
      · subst hu
        split
        · simp
        · split
          · simp
          · next hne =>
              rw [List.lookup_cons, beq_false_of_ne hne, if_pos rfl]
              simpa using lookup_insertEntry u c rest u
      · rw [if_neg hu]
        split
        · rw [List.lookup_cons, beq_false_of_ne hu]
        · split
          · next h => rw [List.lookup_cons, List.lookup_cons, ← h, beq_false_of_ne hu]
          · rw [List.lookup_cons, List.lookup_cons]
            split
            · rfl
            · simpa [hu] using lookup_insertEntry ty c rest u

theorem contents_insert (c : Converter) :
    (t.insert ty c).contents = t.contents.put ty c.content := by
  funext u
  simp only [contents, find?, insert, lookup_insertEntry, Contents.put]
  split <;> rfl

theorem contains_iff : t.contains ty = true ↔ t.contents ty ≠ none := by
  simp [contains, contents, Option.isSome_iff_ne_none]

/-! ## Entries in order -/

/-- Entries stand in ascending order of ids, each id once. -/
def Sorted (t : FixTable) : Prop := t.entries.Pairwise fun e e' => e.1.index < e'.1.index

theorem sorted_empty : empty.Sorted := .nil

theorem mem_insertEntry {e : TyId × Converter} (ty : TyId) (c : Converter) :
    ∀ {entries : List (TyId × Converter)}, e ∈ insertEntry ty c entries →
      e = (ty, c) ∨ e ∈ entries
  | [], h => by simpa [insertEntry] using h
  | (u, d) :: rest, h => by
      unfold insertEntry at h
      split at h
      · simpa using h
      · split at h
        · exact (List.mem_cons.mp h).imp_right (List.mem_cons_of_mem _)
        · rcases List.mem_cons.mp h with rfl | h
          · exact .inr (List.mem_cons_self ..)
          · exact (mem_insertEntry ty c h).imp_right (List.mem_cons_of_mem _)

theorem pairwise_insertEntry (ty : TyId) (c : Converter) :
    ∀ {entries : List (TyId × Converter)},
      entries.Pairwise (fun e e' => e.1.index < e'.1.index) →
        (insertEntry ty c entries).Pairwise fun e e' => e.1.index < e'.1.index
  | [], _ => by simp [insertEntry]
  | (u, d) :: rest, h => by
      obtain ⟨first, others⟩ := List.pairwise_cons.mp h
      unfold insertEntry
      split
      · next hlt =>
          refine List.pairwise_cons.mpr ⟨fun e he => ?_, h⟩
          rcases List.mem_cons.mp he with rfl | he
          · exact hlt
          · exact Nat.lt_trans hlt (first e he)
      · next hge =>
          split
          · next hu =>
              subst hu
              exact List.pairwise_cons.mpr ⟨first, others⟩
          · next hne =>
              refine List.pairwise_cons.mpr ⟨fun e he => ?_, pairwise_insertEntry ty c others⟩
              rcases mem_insertEntry ty c he with rfl | he
              · have : ty.index ≠ u.index := fun h => hne (by cases ty; cases u; cases h; rfl)
                simp only
                omega
              · exact first e he

theorem Sorted.insert {t : FixTable} (h : t.Sorted) (ty : TyId) (c : Converter) :
    (t.insert ty c).Sorted :=
  pairwise_insertEntry ty c h

theorem lookup_eq_some_iff {c : Converter} : ∀ {entries : List (TyId × Converter)},
    entries.Pairwise (fun e e' => e.1.index < e'.1.index) →
      (entries.lookup u = some c ↔ (u, c) ∈ entries)
  | [], _ => by simp
  | (v, d) :: rest, h => by
      obtain ⟨first, others⟩ := List.pairwise_cons.mp h
      rw [List.lookup_cons, List.mem_cons, Prod.mk.injEq]
      by_cases hu : u = v
      · subst hu
        have apart : (u, c) ∉ rest := fun hmem => Nat.lt_irrefl u.index (first (u, c) hmem)
        simp [apart, eq_comm]
      · rw [beq_false_of_ne hu]
        simpa [hu] using lookup_eq_some_iff others

/-- What is looked up is what stands in the table. -/
theorem Sorted.find?_eq_some {t : FixTable} (h : t.Sorted) {c : Converter} :
    t.find? u = some c ↔ (u, c) ∈ t.entries :=
  lookup_eq_some_iff h

/-- Tables with the same contents are the same but for stamps. -/
theorem Sorted.entries_eq {t t' : FixTable} (h : t.Sorted) (h' : t'.Sorted)
    (same : t.contents = t'.contents) :
    t.entries.map (fun e => (e.1, e.2.content)) = t'.entries.map fun e => (e.1, e.2.content) := by
  have mem {t : FixTable} (h : t.Sorted) (e : TyId × Assembly.Content) :
      e ∈ t.entries.map (fun e => (e.1, e.2.content)) ↔ t.contents e.1 = some e.2 := by
    rw [contents, Option.map_eq_some_iff, List.mem_map]
    constructor
    · rintro ⟨⟨u, c⟩, hmem, rfl⟩
      exact ⟨c, h.find?_eq_some.mpr hmem, rfl⟩
    · rintro ⟨c, hfind, hc⟩
      exact ⟨(e.1, c), h.find?_eq_some.mp hfind, by rw [hc]⟩
  have ascending {t : FixTable} (h : t.Sorted) :
      (t.entries.map fun e => (e.1, e.2.content)).Pairwise fun e e' => e.1.index < e'.1.index :=
    List.pairwise_map.mpr h
  have nodup {t : FixTable} (h : t.Sorted) :
      (t.entries.map fun e => (e.1, e.2.content)).Nodup :=
    (ascending h).imp fun hlt heq => by
      subst heq
      exact Nat.lt_irrefl _ hlt
  refine List.Perm.eq_of_pairwise (fun e e' _ _ hlt hlt' => absurd hlt (Nat.lt_asymm hlt'))
    (ascending h) (ascending h') ((List.perm_ext_iff_of_nodup (nodup h) (nodup h')).mpr fun e => ?_)
  rw [mem h, mem h', same]

end FixTable

end Marshal
