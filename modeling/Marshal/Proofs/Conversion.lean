import Mathlib.Data.List.Forall2
import Mathlib.Data.List.Nodup
import Marshal.Proofs.Halting
import Marshal.Run.Apply
import Marshal.Value.Equal

/-!
# What running a step comes to

A run of a step is bounded in depth, and it may add cells to the store but never
changes one. `Ends` says how a family of runs, one for each depth, ends once the
depth is large enough: with a value if some condition holds, and with a fault
otherwise. There is one lemma for each kind of step, so what a converter does
follows from what the converters of its parts do.
-/

namespace Marshal

/-- Every cell is there, with the same contents. -/
def Store.Within (s s' : Store) : Prop :=
  ∀ (i : Nat) v, s.boxes[i]? = some v → s'.boxes[i]? = some v

namespace Store

variable {s s' s'' : Store}

theorem Within.refl (s : Store) : s.Within s := fun _ _ h => h

theorem Within.trans (h : s.Within s') (h' : s'.Within s'') : s.Within s'' :=
  fun i v hi => h' i v (h i v hi)

theorem Within.read (h : s.Within s') {b : BoxId} (hb : b.index < s.boxes.size) :
    b.index < s'.boxes.size ∧ s'.read b = s.read b := by
  have here : s.boxes[b.index]? = some s.boxes[b.index] := Array.getElem?_eq_getElem hb
  have there := h b.index _ here
  exact ⟨(Array.getElem?_eq_some_iff.mp there).1, by rw [Store.read, Store.read, here, there]⟩

/-- A new cell has its contents, and all others are as before. -/
theorem newBox_spec (s : Store) (v : Value) :
    s.Within (s.newBox v).2 ∧ (s.newBox v).1.index < (s.newBox v).2.boxes.size ∧
      (s.newBox v).2.read (s.newBox v).1 = v := by
  refine ⟨fun i u hi => ?_, ?_, ?_⟩
  · have hlt : i < s.boxes.size := (Array.getElem?_eq_some_iff.mp hi).1
    simpa [Store.newBox, Array.getElem?_push, Nat.ne_of_lt hlt] using hi
  · simp [Store.newBox]
  · simp [Store.newBox, Store.read]

end Store

/-- Lists of one length, such as parts, their values and what carries them, are taken together. -/
theorem exists_triples {α β γ : Type} {xs : List α} {ys : List β} {zs : List γ}
    (hxy : ys.length = xs.length) (hyz : zs.length = ys.length) :
    ∃ ts : List (α × β × γ), xs = ts.map (·.1) ∧ ys = ts.map (·.2.1) ∧ zs = ts.map (·.2.2) := by
  refine ⟨xs.zip (ys.zip zs), ?_, ?_, ?_⟩
  · exact (List.map_fst_zip (by simp [hxy, hyz])).symm
  · show ys = (xs.zip (ys.zip zs)).map (Prod.fst ∘ Prod.snd)
    rw [← List.map_map, List.map_snd_zip (by simp [hxy, hyz]), List.map_fst_zip (by simp [hyz])]
  · show zs = (xs.zip (ys.zip zs)).map (Prod.snd ∘ Prod.snd)
    rw [← List.map_map, List.map_snd_zip (by simp [hxy, hyz]), List.map_snd_zip (by simp [hyz])]

/-! ## Objects -/

namespace Value

variable {entries pairs front rest : List (String × Value)} {k : String} {v w : Value}

/-- The entries that count are these pairs of keys and values, as far as these
count. -/
def Keyed (entries pairs : List (String × Value)) : Prop := (present entries).Perm (present pairs)

theorem mem_present : (k, v) ∈ present entries ↔ (k, v) ∈ entries ∧ v.isAbsent = false := by
  simp [present]

theorem keyed_present : Keyed (present pairs) pairs := by
  rw [Keyed, present, present, List.filter_filter]
  simp

theorem present_append : present (front ++ rest) = present front ++ present rest :=
  List.filter_append ..

theorem present_cons (hv : v.isAbsent = false) :
    present ((k, v) :: rest) = (k, v) :: present rest := by
  simp [present, hv]

theorem findKey_eq_some (h : findKey k entries = some v) : (k, v) ∈ present entries := by
  induction entries with
  | nil => cases h
  | cons e entries ih =>
      obtain ⟨k', v'⟩ := e
      rw [findKey] at h
      split at h
      · next hk =>
          cases h
          rw [hk.1.symm, present_cons hk.2]
          exact List.mem_cons_self ..
      · have := ih h
        rw [mem_present] at this ⊢
        exact ⟨List.mem_cons_of_mem _ this.1, this.2⟩

theorem findKey_isSome (h : (k, v) ∈ present entries) : (findKey k entries).isSome = true := by
  induction entries with
  | nil => cases h
  | cons e entries ih =>
      obtain ⟨k', v'⟩ := e
      rw [findKey]
      split
      · rfl
      · next hk =>
          refine ih ?_
          rw [mem_present, List.mem_cons, Prod.mk.injEq] at h
          rcases h with ⟨⟨rfl, rfl⟩ | h, hv⟩
          · exact absurd ⟨rfl, hv⟩ hk
          · exact mem_present.mpr ⟨h, hv⟩

theorem Keyed.findKey_eq (h : Keyed entries pairs) (hp : (pairs.map Prod.fst).Nodup)
    (hmem : (k, v) ∈ pairs) : findKey k entries = if v.isAbsent then none else some v := by
  cases hf : findKey k entries with
  | some w =>
      have hw := mem_present.mp (h.mem_iff.mp (findKey_eq_some hf))
      cases List.inj_on_of_nodup_map hp hw.1 hmem rfl
      rw [hw.2]
      rfl
  | none =>
      cases hv : v.isAbsent with
      | true => rfl
      | false =>
          have := findKey_isSome (h.mem_iff.mpr (mem_present.mpr ⟨hmem, hv⟩))
          rw [hf] at this
          cases this

end Value

namespace Run

variable {α β : Type}

theorem bind_run (x : Run α) (f : α → Run β) (s : Store) :
    (x >>= f) s = match x s with
      | (.ok v, s') => f v s'
      | (.error h, s') => (.error h, s') := by
  rw [run_bind]
  rcases x s with ⟨_ | v, s'⟩ <;> rfl

/-! ## How runs end -/

/-- From some depth on the runs end alike: with a value of which `P` holds if they
are `good`, else with a fault. -/
def Ends (x : Nat → Run α) (s : Store) (good : Prop) (P : Store → α → Prop) : Prop :=
  ∃ r s', (∃ n, ∀ d ≥ n, x d s = (r, s')) ∧ s.Within s' ∧
    match r with
    | .ok v => good ∧ P s' v
    | .error h => ¬good ∧ ∃ f, h = .fault f

variable {s : Store} {good good' : Prop} {P : Store → α → Prop}

theorem Ends.pure {v : α} (h : P s v) : Ends (fun _ => Pure.pure v) s True P :=
  ⟨.ok v, s, ⟨0, fun _ _ => rfl⟩, .refl s, trivial, h⟩

theorem Ends.fail {f : Fault} (h : ¬good) : Ends (fun _ => Run.fail f) s good P :=
  ⟨.error (.fault f), s, ⟨0, fun _ _ => rfl⟩, .refl s, h, f, rfl⟩

theorem Ends.ofExcept {x : Except Fault α} (h : ∀ v, x = .ok v → good ∧ P s v)
    (h' : ∀ f, x = .error f → ¬good) : Ends (fun _ => Run.ofExcept x) s good P := by
  cases x with
  | ok v => exact ⟨.ok v, s, ⟨0, fun _ _ => rfl⟩, .refl s, h v rfl⟩
  | error f => exact .fail (h' f rfl)

theorem Ends.imp {x : Nat → Run α} {Q : Store → α → Prop} (h : Ends x s good P)
    (hgood : good' → good) (hP : ∀ s' v, s.Within s' → good → P s' v → good' ∧ Q s' v) :
    Ends x s good' Q := by
  obtain ⟨r, s', hx, hs, hr⟩ := h
  refine ⟨r, s', hx, hs, ?_⟩
  cases r with
  | ok v => exact hP s' v hs hr.1 hr.2
  | error h => exact ⟨fun h => hr.1 (hgood h), hr.2⟩

/-- Runs that agree from some depth on end alike. -/
theorem Ends.congr {x y : Nat → Run α} (k : Nat) (h : Ends x s good P)
    (hxy : ∀ d, y (d + k) s = x d s) : Ends y s good P := by
  obtain ⟨r, s', ⟨n, hx⟩, hr⟩ := h
  refine ⟨r, s', ⟨n + k, fun d hd => ?_⟩, hr⟩
  have := hxy (d - k)
  rw [Nat.sub_add_cancel (by omega)] at this
  rw [this]
  exact hx _ (by omega)

theorem Ends.bind {x : Nat → Run α} {f : Nat → α → Run β} {Q : Store → β → Prop}
    (hx : Ends x s good P)
    (hf : ∀ s' v, s.Within s' → good → P s' v → Ends (fun d => f d v) s' good' Q) :
    Ends (fun d => x d >>= f d) s (good ∧ good') Q := by
  obtain ⟨r, s₁, ⟨n, hx⟩, hs, hr⟩ := hx
  cases r with
  | error h =>
      refine ⟨.error h, s₁, ⟨n, fun d hd => ?_⟩, hs, fun hg => hr.1 hg.1, hr.2⟩
      show (x d >>= f d) s = _
      rw [bind_run, hx d hd]
  | ok v =>
      obtain ⟨r', s₂, ⟨m, hf⟩, hs', hr'⟩ := hf s₁ v hs hr.1 hr.2
      refine ⟨r', s₂, ⟨max n m, fun d hd => ?_⟩, hs.trans hs', ?_⟩
      · show (x d >>= f d) s = _
        rw [bind_run, hx d (by omega)]
        exact hf d (by omega)
      · cases r' with
        | ok v' => exact ⟨⟨hr.1, hr'.1⟩, hr'.2⟩
        | error h => exact ⟨fun hg => hr'.1 hg.2, hr'.2⟩

/-- A list of runs, one after another. -/
theorem Ends.mapM {f : Nat → α → Run β} {good : α → Prop} {P : α → Store → β → Prop}
    (mono : ∀ x s s' y, s.Within s' → P x s y → P x s' y) :
    ∀ {xs : List α} {s : Store},
      (∀ x ∈ xs, ∀ s', s.Within s' → Ends (fun d => f d x) s' (good x) (P x)) →
      Ends (fun d => xs.mapM (f d)) s (∀ x ∈ xs, good x)
        fun s' ys => List.Forall₂ (fun x y => P x s' y) xs ys
  | [], s, _ => by
      simp only [List.mapM_nil]
      exact (Ends.pure (P := fun _ ys => ys = []) rfl).imp (fun _ => trivial)
        fun s' ys _ _ h => ⟨by simp, h ▸ .nil⟩
  | x :: xs, s, h => by
      simp only [List.mapM_cons]
      have head := h x (List.mem_cons_self ..) s (.refl s)
      have whole := head.bind (f := fun d y => do Pure.pure (y :: (← xs.mapM (f d))))
        (Q := fun s' ys => List.Forall₂ (fun x y => P x s' y) (x :: xs) ys) fun s₁ y hs₁ _ hy =>
        (Ends.mapM mono (s := s₁) fun z hz s' hs' =>
          h z (List.mem_cons_of_mem _ hz) s' (hs₁.trans hs')).bind
            (f := fun _ ys => Pure.pure (y :: ys)) fun s₂ ys hs₂ _ hys =>
              .pure (.cons (mono x _ _ _ hs₂ hy) hys)
      refine whole.imp (fun hg => ⟨hg x (List.mem_cons_self ..), fun z hz =>
        hg z (List.mem_cons_of_mem _ hz), trivial⟩) fun s' ys _ hg hys => ⟨fun z hz => ?_, hys⟩
      rcases List.mem_cons.mp hz with rfl | hz
      · exact hg.1
      · exact hg.2.1 z hz

/-! ## One step -/

/-- The step, run on the value in this store or a later one, ends so. -/
def Lands (table : FixTable) (step : Step) (s : Store) (v : Value) (good : Prop)
    (P : Store → Value → Prop) : Prop :=
  ∀ s', s.Within s' → Ends (fun d => applyWithin table d step v) s' good P

namespace Lands

variable {table : FixTable} {step inner : Step} {s : Store} {v : Value} {good good' : Prop}
  {P Q : Store → Value → Prop} {d : Direction} {ty : TyId}

theorem later {s' : Store} (h : Lands table step s v good P) (hs : s.Within s') :
    Lands table step s' v good P :=
  fun s₁ hs₁ => h s₁ (hs.trans hs₁)

theorem imp (h : Lands table step s v good P) (hgood : good' → good)
    (hP : ∀ s' v, s.Within s' → good → P s' v → good' ∧ Q s' v) :
    Lands table step s v good' Q :=
  fun s' hs => (h s' hs).imp hgood fun s₁ v hs₁ => hP s₁ v (hs.trans hs₁)

theorem of_layer (h : ∀ s', s.Within s' →
    Ends (fun d => applyLayer table (applyWithin table d) step v) s' good P) :
    Lands table step s v good P :=
  fun s' hs => (h s' hs).congr 1 fun _ => rfl

theorem identity (hg : good) (h : ∀ s', s.Within s' → P s' v) :
    Lands table .identity s v good P :=
  of_layer fun s' hs => (Ends.pure (P := P) (h s' hs)).imp (fun _ => trivial)
    fun _ _ _ _ hP => ⟨hg, hP⟩

theorem identity_inv (h : Lands table .identity s v good P) : good ∧ P s v := by
  obtain ⟨r, s', ⟨n, hn⟩, -, hr⟩ := h s (.refl s)
  cases (hn (n + 1) (Nat.le_succ n)).symm.trans (rfl : applyWithin table (n + 1) .identity v s = _)
  exact hr

theorem mapOption_absent (h : ∀ s', s.Within s' → P s' .absent) :
    Lands table (.mapOption inner) s .absent True P :=
  of_layer fun s' hs => Ends.pure (h s' hs)

theorem mapOption (hv : v.isAbsent = false) (h : Lands table inner s v good P) :
    Lands table (.mapOption inner) s v good P :=
  of_layer fun s' hs => by
    cases v with
    | absent => cases hv
    | _ => exact h s' hs

theorem mapNullable_null (h : ∀ s', s.Within s' → P s' v)
    (hv : v.isNull = true ∨ v.isAbsent = true) :
    Lands table (.mapNullable inner) s v True P :=
  of_layer fun s' hs => by
    cases v with
    | null | absent => exact Ends.pure (h s' hs)
    | _ => rcases hv with hv | hv <;> cases hv

theorem mapNullable (hv : v.isNull = false) (hv' : v.isAbsent = false)
    (h : Lands table inner s v good P) : Lands table (.mapNullable inner) s v good P :=
  of_layer fun s' hs => by
    cases v with
    | null => cases hv
    | absent => cases hv'
    | _ => exact h s' hs

theorem passBox {b : BoxId} (h : ∀ s', s.Within s' → P s' (.box b)) :
    Lands table (.passBox inner) s (.box b) True P :=
  of_layer fun s' hs => Ends.pure (h s' hs)

/-- The new cell holds the converted contents. -/
theorem rebuildBox {b : BoxId} (hb : b.index < s.boxes.size)
    (h : Lands table inner s (s.read b) good P)
    (mono : ∀ s s' v, s.Within s' → P s v → P s' v) :
    Lands table (.rebuildBox inner) s (.box b) good fun s' v =>
      ∃ b', v = .box b' ∧ b'.index < s'.boxes.size ∧ P s' (s'.read b') :=
  of_layer fun s' hs => by
    have contents := h s' hs
    rw [← (hs.read hb).2] at contents
    refine (contents.bind (f := fun _ => newBox) fun s₁ v hs₁ _ hv => ?_).imp
      (fun hg => ⟨hg, trivial⟩) fun _ _ _ hg h => ⟨hg.1, h⟩
    obtain ⟨within, hlt, hread⟩ := s₁.newBox_spec v
    exact ⟨.ok (.box (s₁.newBox v).1), (s₁.newBox v).2, ⟨0, fun _ _ => rfl⟩, within, trivial,
      _, rfl, hlt, by rw [hread]; exact mono _ _ _ within hv⟩

theorem recurse {body : Converter} (hbody : table.find? ty = some body)
    (h : Lands table (body.step d) s v good P) : Lands table (.recurse ty d) s v good P :=
  of_layer fun s' hs => by
    simp only [applyLayer, hbody]
    exact h s' hs

/-- Steps that are not sequences themselves, one after another. -/
theorem seq {steps : List Step} (hs : ∀ t ∈ steps, t.parts = [t])
    (h : ∀ s', s.Within s' →
      Ends (fun d => steps.foldlM (fun v t => applyWithin table d t v) v) s' good P) :
    Lands table (.seq steps) s v good P := by
  have flat : steps.flatMap Step.parts = steps := by
    clear h
    induction steps with
    | nil => rfl
    | cons t ts ih =>
        rw [List.flatMap_cons, hs t (List.mem_cons_self ..),
          ih fun u hu => hs u (List.mem_cons_of_mem _ hu)]
        rfl
  rw [Step.seq, flat]
  match steps, h with
  | [], h => exact of_layer h
  | [t], h => exact fun s' hs' => (h s' hs').congr 0 fun d => by simp
  | _ :: _ :: _, h => exact of_layer h

section Lists

variable {ι : Type} {xs : List ι} {value : ι → Value} {steps : ι → Step} {good : ι → Prop}
  {P : ι → Store → Value → Prop}

theorem elements (mono : ∀ x s s' v, s.Within s' → P x s v → P x s' v)
    (h : ∀ x ∈ xs, Lands table (steps x) s (value x) (good x) (P x)) :
    Lands table (.mapElements (xs.map steps)) s (.array (xs.map value)) (∀ x ∈ xs, good x)
      fun s' v => ∃ ys, v = .array ys ∧ List.Forall₂ (fun x y => P x s' y) xs ys :=
  of_layer fun s' hs => by
    simp only [applyLayer, List.length_map, if_true, List.zip_map', List.mapM_map]
    have all := Ends.mapM (f := fun d x => applyWithin table d (steps x) (value x)) mono
      fun x hx s₁ hs₁ => h x hx s₁ (hs.trans hs₁)
    exact (all.bind (f := fun _ ys => Pure.pure (Value.array ys)) fun _ ys _ _ hys =>
      .pure ⟨ys, rfl, hys⟩).imp (fun hg => ⟨hg, trivial⟩) fun _ _ _ hg hv => ⟨hg.1, hv⟩

theorem array (mono : ∀ x s s' v, s.Within s' → P x s v → P x s' v)
    (h : ∀ x ∈ xs, Lands table inner s (value x) (good x) (P x)) :
    Lands table (.mapArray inner) s (.array (xs.map value)) (∀ x ∈ xs, good x)
      fun s' v => ∃ ys, v = .array ys ∧ List.Forall₂ (fun x y => P x s' y) xs ys :=
  of_layer fun s' hs => by
    simp only [applyLayer, List.mapM_map]
    have all := Ends.mapM (f := fun d x => applyWithin table d inner (value x)) mono
      fun x hx s₁ hs₁ => h x hx s₁ (hs.trans hs₁)
    exact (all.bind (f := fun _ ys => Pure.pure (Value.array ys)) fun _ ys _ _ hys =>
      .pure ⟨ys, rfl, hys⟩).imp (fun hg => ⟨hg, trivial⟩) fun _ _ _ hg hv => ⟨hg.1, hv⟩

/-- If nothing is done to the elements, nothing is done to the array. -/
theorem still (hstill : ∀ x ∈ xs, steps x = .identity)
    (mono : ∀ x s s' v, s.Within s' → P x s v → P x s' v)
    (h : ∀ x ∈ xs, Lands table (steps x) s (value x) (good x) (P x)) :
    Lands table .identity s (.array (xs.map value)) (∀ x ∈ xs, good x)
      fun s' v => ∃ ys, v = .array ys ∧ List.Forall₂ (fun x y => P x s' y) xs ys := by
  have each : ∀ x ∈ xs, good x ∧ P x s (value x) := fun x hx => by
    have := h x hx
    rw [hstill x hx] at this
    exact this.identity_inv
  refine identity (fun x hx => (each x hx).1) fun s' hs => ⟨_, rfl, ?_⟩
  rw [List.forall₂_map_right_iff, List.forall₂_same]
  exact fun x hx => mono x s s' _ hs (each x hx).2

end Lists

end Lands

/-! ## Fields of keyed records -/

section Keyed

open Value

variable {table : FixTable} {s : Store} {entries front rest : List (String × Value)} {k : String}
  {v : Value}

theorem mapM_atKey_of_absent (f : Value → Run Value) (h : ∀ v, (k, v) ∉ present entries) :
    entries.mapM (atKey f k) = Pure.pure entries := by
  induction entries with
  | nil => rfl
  | cons e entries ih =>
      obtain ⟨k', v'⟩ := e
      have here : ¬(k' = k ∧ v'.isAbsent = false) := by
        rintro ⟨rfl, hv⟩
        exact h v' (mem_present.mpr ⟨List.mem_cons_self .., hv⟩)
      rw [List.mapM_cons, ih fun v hv => h v (mem_present.mpr
        ⟨List.mem_cons_of_mem _ (mem_present.mp hv).1, (mem_present.mp hv).2⟩)]
      simp [atKey, here]

/-- A present field is converted in its place, and nothing else is. -/
theorem mapM_atKey {pre post : List (String × Value)} (f : Value → Run Value)
    (hv : v.isAbsent = false) (hpre : ∀ u, (k, u) ∉ present pre)
    (hpost : ∀ u, (k, u) ∉ present post) :
    (pre ++ (k, v) :: post).mapM (atKey f k) =
      (f v >>= fun u => Pure.pure (pre ++ (k, u) :: post)) := by
  rw [List.mapM_append, List.mapM_cons, mapM_atKey_of_absent f hpre, mapM_atKey_of_absent f hpost]
  simp [atKey, hv]

/-- A key that counts splits the entries, and stands on neither side. -/
theorem Keyed.split (h : Keyed entries (front ++ (k, v) :: rest))
    (hk : ((front ++ (k, v) :: rest).map Prod.fst).Nodup) (hv : v.isAbsent = false) :
    ∃ pre post, entries = pre ++ (k, v) :: post ∧ (∀ u, (k, u) ∉ present pre) ∧
      (∀ u, (k, u) ∉ present post) ∧ Keyed (pre ++ post) (front ++ rest) := by
  have hmem : (k, v) ∈ present entries := h.mem_iff.mpr (mem_present.mpr ⟨by simp, hv⟩)
  obtain ⟨pre, post, rfl⟩ := List.append_of_mem (mem_present.mp hmem).1
  have others : Keyed (pre ++ post) (front ++ rest) := by
    have h := h
    unfold Keyed at h ⊢
    rw [present_append, present_append, present_cons hv, present_cons hv] at h
    rw [present_append, present_append]
    exact ((List.perm_middle.symm.trans h).trans List.perm_middle).cons_inv
  have apart : ∀ u, (k, u) ∉ present (pre ++ post) := by
    intro u hu
    have hu := (mem_present.mp (others.mem_iff.mp hu)).1
    rw [List.map_append, List.map_cons, List.nodup_middle, List.nodup_cons, ← List.map_append] at hk
    exact hk.1 (List.mem_map.mpr ⟨_, hu, rfl⟩)
  rw [present_append] at apart
  exact ⟨pre, post, rfl, fun u hu => apart u (List.mem_append_left _ hu),
    fun u hu => apart u (List.mem_append_right _ hu), others⟩

theorem Lands.atField {inner : Step} {good : Prop} {P : Store → Value → Prop}
    (h : Keyed entries (front ++ (k, v) :: rest))
    (hk : ((front ++ (k, v) :: rest).map Prod.fst).Nodup) (hv : v.isAbsent = false)
    (hinner : Lands table inner s v good P) (hpresent : ∀ s' u, P s' u → u.isAbsent = false) :
    Lands table (.atField k inner) s (.object entries) good fun s' r =>
      ∃ entries' u, r = .object entries' ∧ P s' u ∧ Keyed entries' (front ++ (k, u) :: rest) :=
  of_layer fun s' hs => by
    obtain ⟨pre, post, rfl, hpre, hpost, others⟩ := Keyed.split h hk hv
    simp only [applyLayer, mapM_atKey _ hv hpre hpost, bind_assoc, pure_bind]
    refine ((hinner s' hs).bind (f := fun _ u => Pure.pure (Value.object (pre ++ (k, u) :: post)))
      fun s₁ u _ _ hu => .pure ⟨_, u, rfl, hu, ?_⟩).imp (fun hg => ⟨hg, trivial⟩)
        fun _ _ _ hg hr => ⟨hg.1, hr⟩
    unfold Keyed at others ⊢
    have present_u := hpresent _ _ hu
    rw [present_append, present_append] at others
    rw [present_append, present_append, present_cons present_u, present_cons present_u]
    exact (List.perm_middle.trans (others.cons _)).trans List.perm_middle.symm

theorem Lands.atField_absent {inner : Step} (h : Keyed entries (front ++ (k, .absent) :: rest))
    (hk : ((front ++ (k, .absent) :: rest).map Prod.fst).Nodup) :
    Lands table (.atField k inner) s (.object entries) True fun _ r => r = .object entries :=
  of_layer fun s' hs => by
    have missing : ∀ u, (k, u) ∉ present entries := fun u hu => by
      have hu := mem_present.mp (h.mem_iff.mp hu)
      cases List.inj_on_of_nodup_map hk hu.1 (by simp : (k, Value.absent) ∈ _) rfl
      cases hu.2
    simp only [applyLayer, mapM_atKey_of_absent _ missing, pure_bind]
    exact .pure rfl

/-- What is known of a field before it is converted: how its step ends, that absence
stays, and that presence does. -/
structure Crosses (table : FixTable) (step : Step) (s : Store) (v : Value) (good : Prop)
    (P : Store → Value → Prop) : Prop where
  lands : Lands table step s v good P
  absent : v = .absent → good ∧ ∀ s', s.Within s' → P s' .absent
  present : v.isAbsent = false → ∀ s' u, P s' u → u.isAbsent = false

theorem Crosses.later {step : Step} {good : Prop} {P : Store → Value → Prop} {s' : Store}
    (h : Crosses table step s v good P) (hs : s.Within s') : Crosses table step s' v good P :=
  ⟨h.lands.later hs, fun hv => ⟨(h.absent hv).1, fun _ hs' => (h.absent hv).2 _ (hs.trans hs')⟩,
    h.present⟩

theorem Crosses.atField {step : Step} {good : Prop} {P : Store → Value → Prop}
    (hx : Crosses table step s v good P) (h : Keyed entries (front ++ (k, v) :: rest))
    (hk : ((front ++ (k, v) :: rest).map Prod.fst).Nodup) :
    Lands table (.atField k step) s (.object entries) good fun s' r =>
      ∃ entries' u, r = .object entries' ∧ P s' u ∧ Keyed entries' (front ++ (k, u) :: rest) := by
  cases hv : v.isAbsent with
  | false => exact .atField h hk hv hx.lands (hx.present hv)
  | true =>
      have absent : v = .absent := by cases v <;> first | rfl | cases hv
      subst absent
      obtain ⟨hg, hP⟩ := hx.absent rfl
      exact (Lands.atField_absent h hk).imp (fun _ => trivial) fun s' r hs _ hr =>
        ⟨hg, entries, .absent, hr, hP s' hs, h⟩

variable {ι : Type} {key : ι → String} {value : ι → Value} {steps : ι → Step} {moved : ι → Bool}
  {good : ι → Prop} {P : ι → Store → Value → Prop}

/-- The steps of fields, one after another. Some are left out because nothing is done
there. By induction on the fields that remain; `front` has been converted. -/
theorem Ends.fields (mono : ∀ x s s' v, s.Within s' → P x s v → P x s' v)
    (hstill : ∀ x, moved x = false → steps x = .identity) :
    ∀ {xs : List ι} {s : Store} {front entries : List (String × Value)},
      (∀ x ∈ xs, Crosses table (steps x) s (value x) (good x) (P x)) →
      Keyed entries (front ++ xs.map fun x => (key x, value x)) →
      (front.map Prod.fst ++ xs.map key).Nodup →
      Ends (fun d => ((xs.filter moved).map fun x => Step.atField (key x) (steps x)).foldlM
          (fun v t => applyWithin table d t v) (.object entries)) s (∀ x ∈ xs, good x) fun s' r =>
        ∃ entries' us, r = .object entries' ∧ List.Forall₂ (fun x u => P x s' u) xs us ∧
          Keyed entries' (front ++ (xs.map key).zip us)
  | [], s, front, entries, _, h, _ => by
      refine (Ends.pure (P := fun _ r => r = .object entries) rfl).imp (fun _ => trivial) ?_
      rintro s' _ _ _ rfl
      exact ⟨by simp, entries, [], rfl, .nil, by simpa using h⟩
  | x :: xs, s, front, entries, hx, h, hk => by
      have head := hx x (List.mem_cons_self ..)
      have tail {s₁ : Store} (hs : s.Within s₁) {entries₁ : List (String × Value)} {u : Value}
          (hu : P x s₁ u)
          (h₁ : Keyed entries₁ (front ++ (key x, u) :: xs.map fun x => (key x, value x))) :
          Ends (fun d => ((xs.filter moved).map fun x => Step.atField (key x) (steps x)).foldlM
              (fun v t => applyWithin table d t v) (.object entries₁)) s₁ (∀ x ∈ xs, good x)
                fun s' r =>
            ∃ entries' us, r = .object entries' ∧
              List.Forall₂ (fun x u => P x s' u) (x :: xs) us ∧
              Keyed entries' (front ++ ((x :: xs).map key).zip us) := by
        have keyed :
            Keyed entries₁ ((front ++ [(key x, u)]) ++ xs.map fun x => (key x, value x)) := by
          simpa using h₁
        have apart : ((front ++ [(key x, u)]).map Prod.fst ++ xs.map key).Nodup := by simpa using hk
        refine (Ends.fields mono hstill (fun y hy => (hx y (List.mem_cons_of_mem _ hy)).later hs)
          keyed apart).imp id ?_
        rintro s₂ _ hs₂ hg ⟨entries₂, us, rfl, hus, h₂⟩
        exact ⟨hg, entries₂, u :: us, rfl, .cons (mono _ _ _ _ hs₂ hu) hus, by simpa using h₂⟩
      cases hm : moved x with
      | true =>
          rw [List.filter_cons_of_pos hm]
          simp only [List.map_cons, List.foldlM_cons]
          have first := head.atField (k := key x)
            (by simpa using h) (by simpa [Function.comp_def] using hk)
          refine ((first s (.refl s)).bind (f := fun d r =>
            ((xs.filter moved).map fun x => Step.atField (key x) (steps x)).foldlM
              (fun v t => applyWithin table d t v) r) ?_).imp
                (fun hg => ⟨hg x (List.mem_cons_self ..),
                  fun y hy => hg y (List.mem_cons_of_mem _ hy)⟩)
                fun _ _ _ hg hr => ⟨by simpa using hg, hr⟩
          rintro s₁ _ hs _ ⟨entries₁, u, rfl, hu, h₁⟩
          exact tail hs hu h₁
      | false =>
          rw [List.filter_cons_of_neg (by simp [hm])]
          have still := head.lands
          rw [hstill x hm] at still
          obtain ⟨hg, hP⟩ := still.identity_inv
          exact (tail (.refl s) hP (by simpa using h)).imp
            (fun hall y hy => hall y (List.mem_cons_of_mem _ hy)) fun _ _ _ hrest hr =>
              ⟨by simpa using ⟨hg, hrest⟩, hr⟩

end Keyed

end Run

end Marshal
