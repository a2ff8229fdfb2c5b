import Marshal.Proofs.Depth

/-!
# What a run has passed

A run that comes to a value has taken the parts of what it was given to the parts of that
value, each in a run of its own (`Passes`), whatever it was given. There is one lemma for each
kind of step that goes on with a part. On the way the store only grows, so what is in a cell at
first is there when the run comes to it.
-/

namespace Marshal.Run

open Step Value

variable {α β : Type}

/-! ## The store grows -/

/-- The run keeps all cells. -/
def Grows (x : Run α) : Prop := ∀ s : Store, s.Within (x s).2

namespace Grows

theorem pure (v : α) : Grows (Pure.pure v) := fun s => .refl s

theorem ofExcept (r : Except Fault α) : Grows (Run.ofExcept r) := fun s => by
  cases r <;> exact .refl s

theorem bind {x : Run α} {f : α → Run β} (hx : Grows x) (hf : ∀ v, Grows (f v)) :
    Grows (x >>= f) := fun s => by
  rw [bind_run]
  rcases hrun : x s with ⟨_ | v, s₁⟩
  · have := hx s
    rwa [hrun] at this
  · have := hx s
    rw [hrun] at this
    exact this.trans (hf v s₁)

theorem mapM {f : α → Run β} (hf : ∀ v, Grows (f v)) : ∀ vs : List α, Grows (vs.mapM f)
  | [] => by
      rw [List.mapM_nil]
      exact pure _
  | v :: vs => by
      rw [List.mapM_cons]
      exact (hf v).bind fun _ => (mapM hf vs).bind fun _ => pure _

theorem foldlM {f : β → α → Run β} (hf : ∀ b v, Grows (f b v)) :
    ∀ (vs : List α) (b : β), Grows (vs.foldlM f b)
  | [], b => pure b
  | v :: vs, b => by
      rw [List.foldlM_cons]
      exact (hf b v).bind fun _ => foldlM hf vs _

theorem newBox (v : Value) : Grows (Run.newBox v) := fun s => (s.newBox_spec v).1

theorem newFn (v : Value) (n : Nat) (body : Closure → Body) :
    Grows (do Run.newFn n (body (← expectFn v))) := by
  cases v with
  | fn f => exact fun s _ _ h => h
  | _ => exact fun s => .refl s

theorem atKey {f : Value → Run Value} (hf : ∀ v, Grows (f v)) (key : String)
    (e : String × Value) : Grows (Run.atKey f key e) := by
  unfold Run.atKey
  split
  · exact (hf _).bind fun _ => pure _
  · exact pure _

end Grows

theorem applyLayer_grows {table : FixTable} {sub : Step → Value → Run Value}
    (h : ∀ t v, Grows (sub t v)) (step : Step) (v : Value) :
    Grows (applyLayer table sub step v) := by
  have stays {w : Run Value} {r : Except Fault Value} (hw : w = ofExcept r) : Grows w :=
    hw ▸ .ofExcept r
  cases step with
  | identity => exact .pure v
  | wrapRecord slots => exact .ofExcept _
  | unwrapRecord slots => exact .ofExcept _
  | mapOption inner =>
      cases v with
      | absent => exact .pure _
      | _ => exact h _ _
  | mapNullable inner =>
      cases v with
      | absent | null => exact .pure _
      | _ => exact h _ _
  | atField name inner =>
      cases v with
      | object entries => exact (Grows.mapM (.atKey (h inner) name) _).bind fun _ => .pure _
      | _ => exact stays (r := .error _) rfl
  | adaptArity adapter => exact .newFn v _ _
  | substituteDefault lit => cases v <;> exact .pure _
  | passBox inner =>
      cases v with
      | box b => exact .pure _
      | _ => exact stays (r := .error _) rfl
  | rebuildBox inner =>
      cases v with
      | box b =>
          have read : Grows (Run.read b) := fun s => .refl s
          exact read.bind fun _ => (h _ _).bind fun _ => .newBox _
      | _ => exact stays (r := .error _) rfl
  | sequence steps => exact .foldlM (fun _ _ => h _ _) _ _
  | mapElements steps =>
      cases v with
      | array items =>
          simp only [applyLayer]
          split
          · exact (Grows.mapM (fun _ => h _ _) _).bind fun _ => .pure _
          · exact stays (r := .error _) rfl
      | _ => exact stays (r := .error _) rfl
  | mapArray inner =>
      cases v with
      | array items => exact (Grows.mapM (h inner) _).bind fun _ => .pure _
      | _ => exact stays (r := .error _) rfl
  | retag source target cases =>
      refine (Grows.ofExcept _).bind fun shape => ?_
      dsimp only
      split
      · exact (h _ _).bind fun _ => .pure _
      · exact .pure _
  | wrapFunction args ret => exact .newFn v _ _
  | recurse target direction =>
      simp only [applyLayer]
      split
      · exact h _ _
      · exact stays (r := .error _) rfl

theorem applyWithin_grows (table : FixTable) :
    ∀ (depth : Nat) (step : Step) (v : Value), Grows (applyWithin table depth step v)
  | 0, _, _ => fun s => .refl s
  | depth + 1, step, v => applyLayer_grows (applyWithin_grows table depth) step v

theorem Grows.of_eq {x : Run α} {r : Except Halt α} {s s' : Store} (hx : Grows x)
    (h : x s = (r, s')) : s.Within s' := by
  have := hx s
  rwa [h] at this

/-- Each piece of work on a list was done in a store between the first and the last one. -/
theorem traces_at {f : α → Run β} {xs : List α} {ys : List β} {s s' : Store}
    (h : Traces f xs s ys s') (hf : ∀ x, Grows (f x)) :
    s.Within s' ∧ ∀ (i : Nat) x, xs[i]? = some x → ∃ y τ τ', ys[i]? = some y ∧ s.Within τ ∧
      f x τ = (.ok y, τ') ∧ τ'.Within s' := by
  induction h with
  | nil => exact ⟨.refl _, fun i x hx => by simp at hx⟩
  | @cons x xs y ys s s₁ s' hx _ ih =>
      obtain ⟨within, rest⟩ := ih
      have first := (hf x).of_eq hx
      refine ⟨first.trans within, fun i z hz => ?_⟩
      cases i with
      | zero =>
          cases hz
          exact ⟨y, s, s₁, rfl, .refl s, hx, within⟩
      | succ i =>
          obtain ⟨w, τ, τ', hw, hs, hz, hs'⟩ := rest i z hz
          exact ⟨w, τ, τ', hw, first.trans hs, hz, hs'⟩

end Marshal.Run

namespace Marshal.Value

/-- What stands under a key of these entries. -/
def under (key : String) (entries : List (String × Value)) : Value :=
  (findKey key entries).getD .absent

variable {k : String} {v : Value} {entries : List (String × Value)} {e : String × Value}

theorem under_cons (hv : v.isAbsent = false) : under k ((k, v) :: entries) = v := by
  simp [under, findKey, hv]

theorem under_cons_of_not (h : ¬(e.1 = k ∧ e.2.isAbsent = false)) :
    under k (e :: entries) = under k entries := by
  rw [under, findKey, if_neg h, under]

theorem Keyed.under_eq {pairs : List (String × Value)} (h : Keyed entries pairs)
    (hp : (pairs.map Prod.fst).Nodup) (hmem : (k, v) ∈ pairs) : under k entries = v := by
  rw [under, h.findKey_eq hp hmem]
  cases v <;> rfl

theorem SamePresence.isAbsent {v w : Value} (h : v.SamePresence w) (hv : v.isAbsent = false) :
    w.isAbsent = false := by
  cases w with
  | absent => rw [h.1.mpr rfl] at hv; cases hv
  | _ => rfl

end Marshal.Value

namespace Marshal.Run

open Step Value

/-! ## Passing through a step -/

section Passing

variable {table : FixTable} {step inner : Step} {steps ts : List Step} {s s₁ s' : Store}
  {u v v' : Value} {k : String} {ty : TyId} {d : Direction}

/-- Between the first store and the second the step has taken the first value to the second. -/
def Passes (table : FixTable) (step : Step) (s s' : Store) (v v' : Value) : Prop :=
  ∃ depth τ τ', s.Within τ ∧ applyWithin table depth step v τ = (.ok v', τ') ∧ τ'.Within s'

namespace Passes

theorem of_run {depth : Nat} (h : applyWithin table depth step v s = (.ok v', s')) :
    Passes table step s s' v v' :=
  ⟨depth, s, s', .refl s, h, .refl s'⟩

theorem within (h : Passes table step s s' v v') : s.Within s' := by
  obtain ⟨depth, τ, τ', hs, hrun, hs'⟩ := h
  exact (hs.trans ((applyWithin_grows table depth step v).of_eq hrun)).trans hs'

theorem identity (hs : s.Within s') (v : Value) : Passes table .identity s s' v v :=
  ⟨1, s, s, .refl s, rfl, hs⟩

/-- The outer layer of what was passed. -/
theorem layer (h : Passes table step s s' v v') : ∃ depth τ τ', s.Within τ ∧
    applyLayer table (applyWithin table depth) step v τ = (.ok v', τ') ∧ τ'.Within s' := by
  obtain ⟨_ | depth, τ, τ', hs, hrun, hs'⟩ := h
  · cases hrun
  · exact ⟨depth, τ, τ', hs, hrun, hs'⟩

theorem identity_inv (h : Passes table .identity s s' v v') : v' = v := by
  obtain ⟨depth, τ, τ', -, hrun, -⟩ := h.layer
  cases hrun
  rfl

theorem mapOption (h : Passes table (.mapOption inner) s s' v v') :
    v = .absent ∧ v' = .absent ∨ Passes table inner s s' v v' := by
  obtain ⟨depth, τ, τ', hs, hrun, hs'⟩ := h.layer
  cases v with
  | absent =>
      cases hrun
      exact .inl ⟨rfl, rfl⟩
  | _ => exact .inr ⟨depth, τ, τ', hs, hrun, hs'⟩

theorem mapNullable (h : Passes table (.mapNullable inner) s s' v v') :
    (v = .absent ∨ v = .null) ∧ v' = v ∨ Passes table inner s s' v v' := by
  obtain ⟨depth, τ, τ', hs, hrun, hs'⟩ := h.layer
  cases v with
  | absent =>
      cases hrun
      exact .inl ⟨.inl rfl, rfl⟩
  | null =>
      cases hrun
      exact .inl ⟨.inr rfl, rfl⟩
  | _ => exact .inr ⟨depth, τ, τ', hs, hrun, hs'⟩

theorem recurse (h : Passes table (.recurse ty d) s s' v v') :
    ∃ body, table.find? ty = some body ∧ Passes table (body.step d) s s' v v' := by
  obtain ⟨depth, τ, τ', hs, hrun, hs'⟩ := h.layer
  simp only [applyLayer] at hrun
  cases hbody : table.find? ty with
  | none =>
      rw [hbody] at hrun
      cases hrun
  | some body =>
      rw [hbody] at hrun
      exact ⟨body, rfl, depth, τ, τ', hs, hrun, hs'⟩

theorem mapArray (h : Passes table (.mapArray inner) s s' v v') :
    ∃ items items', v = .array items ∧ v' = .array items' ∧ ∀ (i : Nat) u, items[i]? = some u →
      ∃ u', items'[i]? = some u' ∧ Passes table inner s s' u u' := by
  obtain ⟨depth, τ, τ', hs, hrun, hs'⟩ := h.layer
  cases v with
  | array items =>
      obtain ⟨items', τ₁, hitems, hrun⟩ := bind_eq_ok hrun
      cases hrun
      obtain ⟨-, each⟩ := traces_at (mapM_eq_ok hitems) (applyWithin_grows table depth inner)
      refine ⟨items, items', rfl, rfl, fun i u hu => ?_⟩
      obtain ⟨u', τ₂, τ₃, hu', hτ, hrun, hτ'⟩ := each i u hu
      exact ⟨u', hu', depth, τ₂, τ₃, hs.trans hτ, hrun, hτ'.trans hs'⟩
  | _ => cases hrun

theorem mapElements (h : Passes table (.mapElements steps) s s' v v') :
    ∃ items items', v = .array items ∧ v' = .array items' ∧ ∀ (i : Nat) u t,
      items[i]? = some u → steps[i]? = some t →
        ∃ u', items'[i]? = some u' ∧ Passes table t s s' u u' := by
  obtain ⟨depth, τ, τ', hs, hrun, hs'⟩ := h.layer
  cases v with
  | array items =>
      simp only [applyLayer] at hrun
      split at hrun
      · obtain ⟨items', τ₁, hitems, hrun⟩ := bind_eq_ok hrun
        cases hrun
        obtain ⟨-, each⟩ := traces_at (mapM_eq_ok hitems)
          fun x => applyWithin_grows table depth x.2 x.1
        refine ⟨items, items', rfl, rfl, fun i u t hu ht => ?_⟩
        obtain ⟨u', τ₂, τ₃, hu', hτ, hrun, hτ'⟩ :=
          each i (u, t) (List.getElem?_zip_eq_some.mpr ⟨hu, ht⟩)
        exact ⟨u', hu', depth, τ₂, τ₃, hs.trans hτ, hrun, hτ'.trans hs'⟩
      · cases hrun
  | _ => cases hrun

theorem passBox (h : Passes table (.passBox inner) s s' v v') : v' = v := by
  obtain ⟨depth, τ, τ', -, hrun, -⟩ := h.layer
  cases v with
  | box b =>
      cases hrun
      rfl
  | _ => cases hrun

/-- The contents are those that the cell has had from the first. -/
theorem rebuildBox {b : BoxId} (h : Passes table (.rebuildBox inner) s s' (.box b) v')
    (hu : s.boxes[b.index]? = some u) :
    ∃ b' u', v' = .box b' ∧ s'.boxes[b'.index]? = some u' ∧ Passes table inner s s' u u' := by
  obtain ⟨depth, τ, τ', hs, hrun, hs'⟩ := h.layer
  have hrun : (applyWithin table depth inner (τ.read b) >>= newBox) τ = (.ok v', τ') := hrun
  obtain ⟨u', τ₂, hinner, hrun⟩ := bind_eq_ok hrun
  cases hrun
  rw [Store.read, hs _ _ hu, Option.getD_some] at hinner
  obtain ⟨grown, -, -⟩ := τ₂.newBox_spec u'
  refine ⟨_, u', rfl, hs' _ _ ?_, depth, τ, τ₂, hs, hinner, grown.trans hs'⟩
  exact Array.getElem?_push_size

theorem retag {source target : VariantCarrier} {cases : List CaseStep}
    (h : Passes table (.retag source target cases) s s' v v') :
    ∃ i payload, Variant.decode source cases v = .ok (i, payload) ∧
      ∀ t u, (cases[i]?).bind CaseStep.payload = some t → payload = some u →
        ∃ u', v' = Variant.encode target cases i (some u') ∧ Passes table t s s' u u' := by
  obtain ⟨depth, τ, τ', hs, hrun, hs'⟩ := h.layer
  simp only [applyLayer] at hrun
  obtain ⟨⟨i, payload⟩, τ₁, hdecode, hrun⟩ := bind_eq_ok hrun
  have decoded := ofExcept_eq_ok hdecode
  rw [decoded] at hdecode
  cases hdecode
  refine ⟨i, payload, decoded, fun t u ht hu => ?_⟩
  subst hu
  simp only [ht] at hrun
  obtain ⟨u', τ₂, hinner, hrun⟩ := bind_eq_ok hrun
  cases hrun
  exact ⟨u', rfl, depth, τ, _, hs, hinner, hs'⟩

theorem wrapRecord {slots : List RecordSlot} (h : Passes table (.wrapRecord slots) s s' v v') :
    Run.wrapRecord slots v = .ok v' := by
  obtain ⟨depth, τ, τ', -, hrun, -⟩ := h.layer
  exact ofExcept_eq_ok hrun

theorem unwrapRecord {slots : List RecordSlot} (h : Passes table (.unwrapRecord slots) s s' v v') :
    Run.unwrapRecord slots v = .ok v' := by
  obtain ⟨depth, τ, τ', -, hrun, -⟩ := h.layer
  exact ofExcept_eq_ok hrun

end Passes

/-- The steps have been passed one after another. -/
inductive PassesAll (table : FixTable) : List Step → Store → Store → Value → Value → Prop
  | nil {s s' : Store} {v : Value} : s.Within s' → PassesAll table [] s s' v v
  | cons {t : Step} {ts : List Step} {s s₁ s' : Store} {v u v' : Value} :
      Passes table t s s₁ v u → PassesAll table ts s₁ s' u v' → PassesAll table (t :: ts) s s' v v'

namespace PassesAll

theorem within (h : PassesAll table ts s s' v v') : s.Within s' := by
  induction h with
  | nil hs => exact hs
  | cons ht _ ih => exact ht.within.trans ih

theorem of_run {depth : Nat} : ∀ {ts : List Step} {s : Store} {v : Value},
    applyAll table depth ts v s = (.ok v', s') → PassesAll table ts s s' v v'
  | [], s, v, h => by
      cases h
      exact .nil (.refl _)
  | t :: ts, s, v, h => by
      rw [applyAll, List.foldlM_cons] at h
      obtain ⟨u, s₁, ht, h⟩ := bind_eq_ok h
      exact .cons (.of_run ht) (of_run h)

theorem later {s₀ : Store} (h : PassesAll table ts s s' v v') (hs : s₀.Within s) :
    PassesAll table ts s₀ s' v v' := by
  cases h with
  | nil hs' => exact .nil (hs.trans hs')
  | cons ht h =>
      obtain ⟨depth, τ, τ', hτ, hrun, hτ'⟩ := ht
      exact .cons ⟨depth, τ, τ', hs.trans hτ, hrun, hτ'⟩ h

theorem earlier (h : PassesAll table ts s s₁ v v') (hs : s₁.Within s') :
    PassesAll table ts s s' v v' := by
  induction h with
  | nil hs' => exact .nil (hs'.trans hs)
  | cons ht _ ih => exact .cons ht (ih hs)

theorem seq (h : Passes table (.seq ts) s s' v v') : PassesAll table ts s s' v v' := by
  obtain ⟨depth, τ, τ', hs, hrun, hs'⟩ := h
  have ends := (mono_apply table (.seq ts) v).settles (r := .ok v') hrun
  obtain ⟨n, hn⟩ := (alike_seq ts v τ _ τ').mp ends
  exact ((of_run (hn n (Nat.le_refl n))).later hs).earlier hs'

theorem append_inv : ∀ {ss : List Step} {s : Store} {v : Value},
    PassesAll table (ss ++ ts) s s' v v' →
      ∃ u s₁, PassesAll table ss s s₁ v u ∧ PassesAll table ts s₁ s' u v'
  | [], s, v, h => ⟨v, s, .nil (.refl s), h⟩
  | t :: ss, s, v, h => by
      cases h with
      | cons ht h =>
          obtain ⟨u, s₁, hss, hts⟩ := append_inv h
          exact ⟨u, s₁, .cons ht hss, hts⟩

end PassesAll

/-! ## Passing through objects -/

/-- An absent value has been left alone, or the step has taken the value to the other. -/
def Conveys (table : FixTable) (step : Step) (s s' : Store) (v v' : Value) : Prop :=
  v = .absent ∧ v' = .absent ∨ Passes table step s s' v v'

/-- The step keeps the presence of whatever passes. -/
def KeepsPresence (table : FixTable) (step : Step) : Prop :=
  ∀ depth v v' s s', applyWithin table depth step v s = (.ok v', s') → v.SamePresence v'

/-- The values under one key are taken to others, and nothing else changes. -/
theorem traces_atKey {f : Value → Run Value} {entries entries' : List (String × Value)}
    (hf : ∀ v, Grows (f v)) (hkeep : ∀ v v' s s', f v s = (.ok v', s') → v.SamePresence v')
    (h : Traces (atKey f k) entries s entries' s') :
    (∀ j ≠ k, under j entries' = under j entries) ∧
      (under k entries = .absent ∧ under k entries' = .absent ∨
        ∃ τ τ', s.Within τ ∧ f (under k entries) τ = (.ok (under k entries'), τ') ∧
          τ'.Within s') := by
  induction h with
  | nil => exact ⟨fun _ _ => rfl, .inl ⟨rfl, rfl⟩⟩
  | @cons e rest e' rest' s s₁ s' he htail ih =>
      obtain ⟨apart, here⟩ := ih
      unfold atKey at he
      split at he
      · next hkey =>
          obtain ⟨u, s₂, hu, he⟩ := bind_eq_ok he
          cases he
          have present := (hkeep _ _ _ _ hu).isAbsent hkey.2
          refine ⟨fun j hj => ?_, .inr ⟨s, s₁, .refl s, ?_, ?_⟩⟩
          · have other : e.1 ≠ j := fun h => hj (h.symm.trans hkey.1)
            rw [under_cons_of_not (e := (e.1, u)) fun h => other h.1,
              under_cons_of_not fun h => other h.1, apart j hj]
          · have first : e = (k, e.2) := Prod.ext hkey.1 rfl
            rw [first, under_cons hkey.2, under_cons present]
            exact hu
          · exact (traces_at htail fun x => .atKey hf k x).1
      · next hkey =>
          cases he
          rw [under_cons_of_not hkey, under_cons_of_not hkey]
          refine ⟨fun j hj => ?_, here⟩
          by_cases hcons : e.1 = j ∧ e.2.isAbsent = false
          · have first : e = (j, e.2) := Prod.ext hcons.1 rfl
            rw [first, under_cons hcons.2, under_cons hcons.2]
          · rw [under_cons_of_not hcons, under_cons_of_not hcons, apart j hj]

theorem Passes.atField {entries : List (String × Value)}
    (h : Passes table (.atField k inner) s s' (.object entries) v') (hkeep : KeepsPresence table inner) :
    ∃ entries', v' = .object entries' ∧ (∀ j ≠ k, under j entries' = under j entries) ∧
      Conveys table inner s s' (under k entries) (under k entries') := by
  obtain ⟨depth, τ, τ', hs, hrun, hs'⟩ := h.layer
  obtain ⟨entries', τ₁, hentries, hrun⟩ := bind_eq_ok hrun
  cases hrun
  obtain ⟨apart, here⟩ := traces_atKey (applyWithin_grows table depth inner)
    (hkeep depth) (mapM_eq_ok hentries)
  refine ⟨entries', rfl, apart, here.imp_right ?_⟩
  rintro ⟨τ₂, τ₃, hτ, hrun, hτ'⟩
  exact ⟨depth, τ₂, τ₃, hs.trans hτ, hrun, hτ'.trans hs'⟩

theorem Conveys.mono {s₀ s₂ : Store} (h : Conveys table step s₀ s₁ v v') (hs : s.Within s₀)
    (hs' : s₁.Within s₂) : Conveys table step s s₂ v v' :=
  h.imp_right fun ⟨depth, τ, τ', hτ, hrun, hτ'⟩ =>
    ⟨depth, τ, τ', hs.trans hτ, hrun, hτ'.trans hs'⟩

/-- Fields are taken over one after another. -/
theorem PassesAll.fields {ι : Type} (key : ι → String) (next : ι → Step) :
    ∀ {xs : List ι} {entries : List (String × Value)} {s : Store}, (xs.map key).Nodup →
      (∀ x ∈ xs, KeepsPresence table (next x)) →
      PassesAll table (xs.map fun x => .atField (key x) (next x)) s s' (.object entries) v' →
      ∃ entries', v' = .object entries' ∧
        (∀ j ∉ xs.map key, under j entries' = under j entries) ∧
        ∀ x ∈ xs, Conveys table (next x) s s' (under (key x) entries) (under (key x) entries')
  | [], entries, s, _, _, h => by
      cases h
      exact ⟨entries, rfl, fun _ _ => rfl, by simp⟩
  | x :: xs, entries, s, hn, hkeep, h => by
      rw [List.map_cons, List.nodup_cons] at hn
      cases h with
      | cons hx h =>
          obtain ⟨entries₁, rfl, apart, here⟩ := hx.atField (hkeep x (List.mem_cons_self ..))
          obtain ⟨entries', rfl, apart', rest⟩ :=
            fields key next hn.2 (fun y hy => hkeep y (List.mem_cons_of_mem _ hy)) h
          refine ⟨entries', rfl, fun j hj => ?_, fun y hy => ?_⟩
          · rw [List.map_cons, List.mem_cons, not_or] at hj
            rw [apart' j hj.2, apart j hj.1]
          · rcases List.mem_cons.mp hy with rfl | hy
            · rw [apart' _ hn.1]
              exact here.mono (.refl s) h.within
            · have other : key y ≠ key x := fun he => hn.1 (he ▸ List.mem_map_of_mem hy)
              rw [← apart _ other]
              exact (rest y hy).mono hx.within (.refl s')

theorem element_ok {slot : RecordSlot} {entries : List (String × Value)}
    (h : wrapRecord.element entries slot = .ok u) : u = under slot.name entries := by
  unfold wrapRecord.element at h
  rw [under]
  cases hfound : findKey slot.name entries with
  | some w =>
      rw [hfound] at h
      cases h
      rfl
  | none =>
      rw [hfound] at h
      dsimp only at h
      split at h <;> cases h
      rfl

theorem mapM_element_ok {entries : List (String × Value)} : ∀ {slots : List RecordSlot}
    {items : List Value}, slots.mapM (wrapRecord.element entries) = .ok items →
      items = slots.map fun slot => under slot.name entries
  | [], items, h => by
      cases h
      rfl
  | slot :: slots, items, h => by
      rw [List.mapM_cons] at h
      cases hfirst : wrapRecord.element entries slot with
      | error f => rw [hfirst] at h; cases h
      | ok u =>
          cases hrest : slots.mapM (wrapRecord.element entries) with
          | error f => rw [hfirst, hrest] at h; cases h
          | ok us =>
              rw [hfirst, hrest] at h
              cases h
              rw [List.map_cons, ← element_ok hfirst, ← mapM_element_ok hrest]

/-- The array has what stands under the names of its slots. -/
theorem wrapRecord_at {slots : List RecordSlot} {entries : List (String × Value)}
    (h : wrapRecord slots (.object entries) = .ok v') :
    ∃ items, v' = .array items ∧ ∀ (i : Nat) slot, slots[i]? = some slot →
      items[i]? = some (under slot.name entries) := by
  cases hitems : slots.mapM (wrapRecord.element entries) with
  | error f => rw [wrapRecord, hitems] at h; cases h
  | ok items =>
      rw [wrapRecord, hitems] at h
      cases h
      refine ⟨items, rfl, fun i slot hslot => ?_⟩
      rw [mapM_element_ok hitems, List.getElem?_map, hslot]
      rfl

/-- Under the names of the slots stand the elements of the array. -/
theorem unwrapRecord_at {slots : List RecordSlot} {items : List Value}
    (h : unwrapRecord slots (.array items) = .ok v') (hn : (slots.map RecordSlot.name).Nodup) :
    ∃ entries, v' = .object entries ∧ ∀ (i : Nat) slot u, slots[i]? = some slot →
      items[i]? = some u → under slot.name entries = u := by
  simp only [unwrapRecord] at h
  split at h
  · next hlen =>
      cases h
      refine ⟨_, rfl, fun i slot u hslot hu => ?_⟩
      have first : (((slots.map RecordSlot.name).zip items).map Prod.fst).Nodup := by
        rwa [List.map_fst_zip (by simp [hlen])]
      refine Keyed.under_eq keyed_present first (List.mem_of_getElem? (i := i) ?_)
      rw [List.getElem?_zip_eq_some, List.getElem?_map, hslot]
      exact ⟨rfl, hu⟩
  · cases h

end Passing

end Marshal.Run
