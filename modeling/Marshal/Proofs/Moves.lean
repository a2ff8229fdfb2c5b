import Marshal.Proofs.Carriers
import Marshal.Proofs.Checks
import Marshal.Proofs.Encoding

/-!
# Moving the parts of a value

What the step of a composite type does, given what the steps of its parts do: the
parts of a record, a tuple or an array go to the other side one by one, and the
carrier is changed around them. The parts, their abstract values and what carries them
are taken together, as a list of triples; `Arrived` says that new carriers stand where
the old ones stood.
-/

namespace Marshal

open Converter Planner Run World

namespace Options

/-- The side that values come from. -/
def source (o : Options) : Direction → Profile
  | .forward => o.host
  | .backward => o.native

/-- The side that values go to. -/
def target (o : Options) : Direction → Profile
  | .forward => o.native
  | .backward => o.host

end Options

/-! ## Steps of composite types -/

theorem bare_step_none (d : Direction) : (bare none).step d = .identity := by cases d <;> rfl

theorem step_of_isIdentity {c : Converter} (h : c.isIdentity = true) (d : Direction) :
    c.step d = .identity := by
  cases c with
  | identity => cases d <;> rfl
  | custom => cases h

theorem step_wrapped (wrap : Step → Step) (c : Converter) (d : Direction) :
    (bare (c.wrapped wrap)).step d = if c.isIdentity then .identity else wrap (c.step d) := by
  cases c <;> cases d <;> rfl

namespace Assembly

variable {o : Options} {d : Direction} {fields : List Field} {slots : List RecordSlot}
  {cs : List Converter}

theorem fieldSteps_of_allIdentity (h : allIdentity cs = true) : fieldSteps fields cs d = [] := by
  rw [fieldSteps, List.filter_eq_nil_iff.mpr fun x hx => ?_]
  · rfl
  · simp [List.all_eq_true.mp h x.2 (List.of_mem_zip hx).2]

theorem step_keyed : (bare (keyed fields cs)).step d = .seq (fieldSteps fields cs d) := by
  unfold keyed
  split
  · next h => rw [fieldSteps_of_allIdentity h, bare_step_none]; rfl
  · cases d <;> rfl

theorem step_positional : (bare (positional cs)).step d =
    if allIdentity cs then .identity else .mapElements (cs.map (·.step d)) := by
  unfold positional
  split
  · rw [bare_step_none]
  · cases d <;> rfl

theorem step_record : (bare (record o.host.records o.native.records fields slots cs)).step d =
    match (o.source d).records, (o.target d).records with
    | .keyed, .keyed => .seq (fieldSteps fields cs d)
    | .positional, .positional => (bare (positional cs)).step d
    | .keyed, .positional => toPositional fields slots cs d
    | .positional, .keyed => toKeyed fields slots cs d := by
  rw [← step_keyed]
  cases d <;> simp only [Options.source, Options.target] <;>
    cases o.host.records <;> cases o.native.records <;> rfl

/-- The constructor as a case, with the step for its payload. -/
def caseOf (conv : TyId → Converter) (d : Direction) (k : Constructor) : CaseStep :=
  ⟨k.name, k.payload.map fun ty => (conv ty).step d⟩

theorem spread_payloads (conv : TyId → Converter) : ∀ ks : List Constructor,
    spread ks ((ks.filterMap Part.ofConstructor).map fun p => conv p.ty) =
      ks.map fun k => k.payload.map conv
  | [] => rfl
  | ⟨_, none⟩ :: ks => by
      simpa [spread, Part.ofConstructor, List.filterMap_cons] using spread_payloads conv ks
  | ⟨_, some _⟩ :: ks => by
      simpa [spread, Part.ofConstructor] using spread_payloads conv ks

theorem step_variant (conv : TyId → Converter) (ks : List Constructor) :
    (bare (variant o.host.variants o.native.variants ks
      (ks.map fun k => k.payload.map conv))).step d =
      if o.host.variants = o.native.variants ∧
        allIdentity ((ks.map fun k => k.payload.map conv).filterMap fun p => p) then .identity
      else .retag (o.source d).variants (o.target d).variants (ks.map (caseOf conv d)) := by
  have all (d : Direction) :
      cases ks (ks.map fun k => k.payload.map conv) d = ks.map (caseOf conv d) := by
    rw [cases, ← List.map_prod_left_eq_zip, List.map_map]
    refine List.map_congr_left fun k _ => ?_
    simp [caseOf, Option.map_map, Function.comp_def]
  rw [variant, all, all]
  split
  · exact bare_step_none d
  · cases d <;> rfl

theorem parts_of_mem_fieldSteps {t : Step} (h : t ∈ fieldSteps fields cs d) : t.parts = [t] := by
  obtain ⟨_, -, rfl⟩ := List.mem_map.mp h
  rfl

end Assembly

/-! ## Parts of a value -/

section Parts

variable {α : Type} {w : World} {side : Profile} {s : Store} {as : List Abstract}
  {vs us : List Value}

variable {xs : List (α × Abstract × Value)}

/-- The parts arrived, one by one. -/
def Arrived (side : Profile) (s : Store) (xs : List (α × Abstract × Value))
    (us : List Value) : Prop :=
  List.Forall₂ (fun x u => Encodes side s x.2.1 u) xs us

theorem Arrived.later {s' : Store} (h : Arrived side s xs us) (hs : s.Within s') :
    Arrived side s' xs us :=
  h.imp fun _ _ h => Encodes.later h hs

/-- What arrived are encodings, side by side. -/
theorem Arrived.encodes (h : Arrived side s xs us) : us.length = (xs.map (·.2.1)).length ∧
    ∀ y ∈ (xs.map (·.2.1)).zip us, Encodes side s y.1 y.2 := by
  have h : List.Forall₂ (fun a u => Encodes side s a u) (xs.map (·.2.1)) us :=
    List.forall₂_map_left_iff.mpr h
  obtain ⟨hlen, hall⟩ := List.forall₂_iff_zip.mp h
  exact ⟨hlen.symm, fun y hy => hall hy⟩

theorem encodes_triples (h : ∀ y ∈ (xs.map (·.2.1)).zip (xs.map (·.2.2)), Encodes side s y.1 y.2) :
    ∀ x ∈ xs, Encodes side s x.2.1 x.2.2 := by
  rw [List.zip_map'] at h
  exact fun x hx => h _ (List.mem_map_of_mem (f := fun x => (x.2.1, x.2.2)) hx)

theorem forall_parts {f : α → Spot} {Q : Spot → Abstract → Prop} :
    (∀ y ∈ ((xs.map (·.1)).map f).zip (xs.map (·.2.1)), Q y.1 y.2) ↔ ∀ x ∈ xs, Q (f x.1) x.2.1 := by
  simp only [List.map_map, List.zip_map', List.forall_mem_map, Function.comp_apply]

/-- No slot that has to be filled is empty. -/
theorem Arrived.slots_iff {xs : List (Field × Abstract × Value)} (h : Arrived side s xs us) :
    (∀ y ∈ ((xs.map (·.1)).map w.slot).zip us, y.2.isAbsent = true → y.1.optional = true) ↔
      ∀ x ∈ xs, x.2.1.isBlank = true → x.1.optional = true ∨ w.StandsForOption x.1.ty := by
  unfold Arrived at h
  induction h with
  | nil => simp
  | cons hx _ ih =>
      simp only [List.map_cons, List.zip_cons_cons, List.forall_mem_cons, ih, slot_optional,
        hx.isAbsent]

end Parts

/-! ## Lists of converters -/

section Lists

variable {α : Type} {xs : List (α × Abstract × Value)} {conv : α → Converter} {c : Converter}
  {d : Direction} {table : FixTable} {s : Store} {good : α × Abstract × Value → Prop}
  {side : Profile}

/-- The same number of values, each with its own converter. -/
theorem positional_lands (hx : ∀ x ∈ xs, Lands table ((conv x.1).step d) s x.2.2 (good x)
      fun s' v => Encodes side s' x.2.1 v) :
    Lands table ((bare (Assembly.positional ((xs.map (·.1)).map conv))).step d) s
      (.array (xs.map (·.2.2))) (∀ x ∈ xs, good x)
      fun s' v => ∃ us, v = .array us ∧ Arrived side s' xs us := by
  have mono (x : α × Abstract × Value) (s s' : Store) (v : Value) (hs : s.Within s')
      (h : Encodes side s x.2.1 v) : Encodes side s' x.2.1 v := h.later hs
  rw [Assembly.step_positional]
  split
  · next hall =>
      refine Lands.still (fun x hmem => step_of_isIdentity ?_ d) mono hx
      exact List.all_eq_true.mp hall _ (List.mem_map_of_mem (List.mem_map_of_mem hmem))
  · rw [List.map_map, List.map_map]
    exact .elements mono hx

/-- Values of one type. -/
theorem array_lands (hx : ∀ x ∈ xs, Lands table (c.step d) s x.2.2 (good x)
      fun s' v => Encodes side s' x.2.1 v) :
    Lands table ((bare (c.wrapped .mapArray)).step d) s (.array (xs.map (·.2.2))) (∀ x ∈ xs, good x)
      fun s' v => ∃ us, v = .array us ∧ Arrived side s' xs us := by
  have mono (x : α × Abstract × Value) (s s' : Store) (v : Value) (hs : s.Within s')
      (h : Encodes side s x.2.1 v) : Encodes side s' x.2.1 v := h.later hs
  rw [step_wrapped]
  split
  · next hi => exact Lands.still (fun _ _ => step_of_isIdentity hi d) mono hx
  · exact .array mono hx

end Lists

/-! ## Fields -/

section Fields

open Value Assembly

variable {w : World} {xs : List (Field × Abstract × Value)} {conv : Field → Converter}
  {d : Direction}
  {table : FixTable} {s : Store} {good : Field × Abstract × Value → Prop} {side : Profile}
  {entries : List (String × Value)}

/-- The names of the fields. -/
abbrev names (xs : List (Field × Abstract × Value)) : List String := (xs.map (·.1)).map Field.name

theorem fieldSteps_map : fieldSteps (xs.map (·.1)) ((xs.map (·.1)).map conv) d =
    (xs.filter fun x => !(conv x.1).isIdentity).map fun x =>
      .atField x.1.name ((conv x.1).step d) := by
  rw [List.map_map, fieldSteps, List.zip_map', List.filter_map, List.map_map]
  rfl

/-- The fields arrived, under their names. -/
def ArrivedKeyed (side : Profile) (s : Store) (xs : List (Field × Abstract × Value)) (v : Value) :
    Prop :=
  ∃ entries us, v = .object entries ∧ Arrived side s xs us ∧ Keyed entries ((names xs).zip us)

/-- The fields of a keyed record, converted in their places. -/
theorem fields_end (hx : ∀ x ∈ xs, Crosses table ((conv x.1).step d) s x.2.2 (good x)
      fun s' v => Encodes side s' x.2.1 v) (hn : (names xs).Nodup)
    (hk : Keyed entries ((names xs).zip (xs.map (·.2.2)))) {s' : Store} (hs : s.Within s') :
    Ends (fun n => (fieldSteps (xs.map (·.1)) ((xs.map (·.1)).map conv) d).foldlM
        (fun v t => applyWithin table n t v) (.object entries)) s' (∀ x ∈ xs, good x)
      fun s' v => ArrivedKeyed side s' xs v := by
  have same : names xs = xs.map fun x => x.1.name := List.map_map
  rw [same] at hn hk
  rw [List.zip_map'] at hk
  have first : Keyed entries ([] ++ xs.map fun x => (x.1.name, x.2.2)) := hk
  have apart : (([] : List (String × Value)).map Prod.fst ++ xs.map fun x => x.1.name).Nodup := hn
  have idle (x : Field × Abstract × Value) (h : (!(conv x.1).isIdentity) = false) :
      (conv x.1).step d = .identity :=
    step_of_isIdentity (by simpa only [Bool.not_eq_false'] using h) d
  have ends := Ends.fields (P := fun x s v => Encodes side s x.2.1 v)
    (fun x _ _ _ hs h => Encodes.later h hs) idle (fun x hmem => (hx x hmem).later hs) first apart
  rw [fieldSteps_map]
  refine ends.imp id fun s₁ v _ hg h => ⟨hg, ?_⟩
  obtain ⟨entries', us, rfl, hus, hk'⟩ := h
  exact ⟨entries', us, rfl, hus, same ▸ hk'⟩

theorem keyed_lands (hx : ∀ x ∈ xs, Crosses table ((conv x.1).step d) s x.2.2 (good x)
      fun s' v => Encodes side s' x.2.1 v) (hn : (names xs).Nodup)
    (hk : Keyed entries ((names xs).zip (xs.map (·.2.2)))) :
    Lands table (.seq (fieldSteps (xs.map (·.1)) ((xs.map (·.1)).map conv) d)) s (.object entries)
      (∀ x ∈ xs, good x) fun s' v => ArrivedKeyed side s' xs v :=
  .seq (fun _ ht => parts_of_mem_fieldSteps ht) fun _ hs => fields_end hx hn hk hs

theorem slots_names : ((xs.map (·.1)).map w.slot).map RecordSlot.name = names xs := by
  rw [List.map_map]
  rfl

/-- Under their names first, then in their order, unless one is missing. -/
theorem toPositional_lands (hx : ∀ x ∈ xs, Crosses table ((conv x.1).step d) s x.2.2 (good x)
      fun s' v => Encodes side s' x.2.1 v) (hn : (names xs).Nodup)
    (hk : Keyed entries ((names xs).zip (xs.map (·.2.2)))) :
    Lands table (toPositional (xs.map (·.1)) ((xs.map (·.1)).map w.slot)
      ((xs.map (·.1)).map conv) d)
      s (.object entries) ((∀ x ∈ xs, good x) ∧
        ∀ x ∈ xs, x.2.1.isBlank = true → x.1.optional = true ∨ w.StandsForOption x.1.ty)
      fun s' v => ∃ us, v = .array us ∧ Arrived side s' xs us := by
  refine Lands.seq (fun t ht => ?_) fun s' hs => ?_
  · rcases List.mem_append.mp ht with ht | ht
    · exact parts_of_mem_fieldSteps ht
    · cases List.mem_singleton.mp ht
      rfl
  · simp only [List.foldlM_append, List.foldlM_cons, List.foldlM_nil, bind_pure]
    refine (fields_end hx hn hk hs).bind fun s₁ v _ _ hv => ?_
    obtain ⟨entries', us, rfl, hus, hk'⟩ := hv
    have wrapped : Lands table (.wrapRecord ((xs.map (·.1)).map w.slot)) s₁ (.object entries')
        (∀ y ∈ ((xs.map (·.1)).map w.slot).zip us, y.2.isAbsent = true → y.1.optional = true)
        fun _ v => v = .array us :=
      .wrapRecord (slots_names.symm ▸ hk') (slots_names.symm ▸ hn)
        (by simpa using hus.length_eq.symm)
    exact (wrapped s₁ (.refl s₁)).imp hus.slots_iff.mpr fun s₂ v hs₂ hg hv =>
      ⟨hus.slots_iff.mp hg, us, hv, hus.later hs₂⟩

/-- In their order first, then under their names. -/
theorem toKeyed_lands (hx : ∀ x ∈ xs, Crosses table ((conv x.1).step d) s x.2.2 (good x)
      fun s' v => Encodes side s' x.2.1 v) (hn : (names xs).Nodup) :
    Lands table (toKeyed (xs.map (·.1)) ((xs.map (·.1)).map w.slot) ((xs.map (·.1)).map conv) d)
      s (.array (xs.map (·.2.2))) (∀ x ∈ xs, good x) fun s' v => ArrivedKeyed side s' xs v := by
  refine Lands.seq (fun t ht => ?_) fun s' hs => ?_
  · rcases List.mem_cons.mp ht with rfl | ht
    · rfl
    · exact parts_of_mem_fieldSteps ht
  · simp only [List.foldlM_cons]
    have unwrapped : Lands table (.unwrapRecord ((xs.map (·.1)).map w.slot)) s'
        (.array (xs.map (·.2.2))) True fun _ v => ∃ entries, v = .object entries ∧
          Keyed entries ((((xs.map (·.1)).map w.slot).map RecordSlot.name).zip (xs.map (·.2.2))) :=
      .unwrapRecord (by simp)
    have ends := (unwrapped s' (.refl s')).bind (f := fun n v =>
      (fieldSteps (xs.map (·.1)) ((xs.map (·.1)).map conv) d).foldlM
        (fun v t => applyWithin table n t v) v) fun s₁ v hs₁ _ hv => by
          obtain ⟨entries, rfl, hk⟩ := hv
          exact fields_end hx hn (slots_names ▸ hk) (hs.trans hs₁)
    exact ends.imp (fun hg => ⟨trivial, hg⟩) fun _ _ _ hg hv => ⟨hg.2, hv⟩

end Fields

/-! ## Constructors -/

section Constructors

open Value Assembly Variant

variable {o : Options} {ks : List Constructor} {g : TyId → Converter} {d : Direction}
  {table : FixTable} {s : Store} {side : Profile} {i : Nat} {name : String} {ty : TyId}
  {a : Abstract} {v p : Value} {good : Prop}

theorem getElem?_caseOf {k : Constructor} (hk : ks[i]? = some k) :
    (ks.map (caseOf g d))[i]? = some (caseOf g d k) := by
  rw [List.getElem?_map, hk]
  rfl

theorem names_caseOf : (ks.map (caseOf g d)).map CaseStep.name = ks.map Constructor.name := by
  rw [List.map_map]
  rfl

theorem number_caseOf (nullary : Bool) :
    numberOf (ks.map (caseOf g d)) i nullary = number ks i nullary :=
  numberOf_map ks _ (fun k => by simp [CaseStep.isNullary, caseOf]) i nullary

theorem decode_constant (hk : ks[i]? = some ⟨name, none⟩) (hn : (ks.map Constructor.name).Nodup)
    (hv : Encodes side s (.constant i name (number ks i true)) v) :
    decode side.variants (ks.map (caseOf g d)) v = .ok (i, none) := by
  have case := getElem?_caseOf (g := g) (d := d) hk
  refine Carries.decodes (names_caseOf ▸ hn) ?_
  cases hv with
  | name hc => exact hc ▸ .name case rfl
  | number hc hnum => exact hc ▸ .number case rfl (hnum.trans (congrArg _ (number_caseOf true).symm))

theorem decode_block (hk : ks[i]? = some ⟨name, some ty⟩) (hn : (ks.map Constructor.name).Nodup)
    (hv : Encodes side s (.block i name (number ks i false) a) v) :
    ∃ p, decode side.variants (ks.map (caseOf g d)) v = .ok (i, some p) ∧ Encodes side s a p := by
  have case := getElem?_caseOf (g := g) (d := d) hk
  cases hv with
  | @tagged _ _ _ _ p entries hc hp hkeyed =>
      refine ⟨p, Carries.decodes (names_caseOf ▸ hn) ?_, hp⟩
      have tag : findKey "tag" entries = some (.str name) :=
        hkeyed.findKey_eq (by simp) (List.mem_cons_self ..)
      have payload : (findKey "value" entries).getD .absent = p := by
        rw [hkeyed.findKey_eq (by simp) (List.mem_cons_of_mem _ (List.mem_cons_self ..))]
        cases p <;> rfl
      exact hc ▸ payload ▸ .tagged case rfl tag
  | numbered hc hp htag =>
      refine ⟨_, Carries.decodes (names_caseOf ▸ hn) ?_, hp⟩
      exact hc ▸ .block case rfl (htag.trans (number_caseOf false).symm)

theorem encode_constant (hk : ks[i]? = some ⟨name, none⟩)
    (hcount : side.variants = .indexed → number ks i true < 2 ^ 63) :
    Encodes side s (.constant i name (number ks i true))
      (encode side.variants (ks.map (caseOf g d)) i none) := by
  rw [encode, getElem?_caseOf hk]
  cases hc : side.variants with
  | tagged => exact .name hc
  | indexed =>
      refine .number hc ?_
      rw [show (caseOf g d ⟨name, none⟩).isNullary = true from rfl, number_caseOf]
      exact Int64.toInt_ofNat_of_lt (hcount hc)

theorem encode_block (hk : ks[i]? = some ⟨name, some ty⟩)
    (hcount : side.variants = .indexed → number ks i false < 2 ^ 32) (hp : Encodes side s a p) :
    Encodes side s (.block i name (number ks i false) a)
      (encode side.variants (ks.map (caseOf g d)) i (some p)) := by
  rw [encode, getElem?_caseOf hk]
  cases hc : side.variants with
  | tagged => exact .tagged hc hp (.refl _)
  | indexed =>
      refine .numbered hc hp ?_
      rw [show (caseOf g d ⟨name, some ty⟩).isNullary = false from rfl, number_caseOf]
      exact UInt32.toNat_ofNat_of_lt' (hcount hc)

/-- The converter of the payload of a constructor is among those that are all identity. -/
theorem payload_isIdentity (hk : ks[i]? = some ⟨name, some ty⟩)
    (h : allIdentity ((ks.map fun k => k.payload.map g).filterMap fun p => p) = true) :
    (g ty).isIdentity = true := by
  refine List.all_eq_true.mp h _ (List.mem_filterMap.mpr ⟨some (g ty), ?_, rfl⟩)
  exact List.mem_map.mpr ⟨_, List.mem_of_getElem? hk, rfl⟩

theorem source_eq_target (h : o.host.variants = o.native.variants) :
    (o.source d).variants = (o.target d).variants := by
  cases d
  · exact h
  · exact h.symm

theorem counts_target {bound n : Nat} (h : o.Counts bound n) :
    (o.target d).variants = .indexed → n < bound := by
  cases d
  · exact fun hc => h (.inr hc)
  · exact fun hc => h (.inl hc)

theorem constant_lands (hk : ks[i]? = some ⟨name, none⟩) (hn : (ks.map Constructor.name).Nodup)
    (hcount : o.Counts (2 ^ 63) (number ks i true))
    (hv : Encodes (o.source d) s (.constant i name (number ks i true)) v) :
    Lands table ((bare (variant o.host.variants o.native.variants ks
        (ks.map fun k => k.payload.map g))).step d) s v True
      fun s' v => Encodes (o.target d) s' (.constant i name (number ks i true)) v := by
  rw [step_variant]
  split
  · next h =>
      refine .identity trivial fun s' hs => ?_
      cases hv with
      | name hc => exact .name (source_eq_target h.1 ▸ hc)
      | number hc hnum => exact .number (source_eq_target h.1 ▸ hc) hnum
  · refine .of_layer fun s' _ => ?_
    simp only [applyLayer, decode_constant hk hn hv, Run.ofExcept, pure_bind, getElem?_caseOf hk]
    exact Ends.pure (encode_constant (g := g) (d := d) hk (counts_target hcount))

theorem block_lands (hk : ks[i]? = some ⟨name, some ty⟩) (hn : (ks.map Constructor.name).Nodup)
    (hcount : o.Counts (2 ^ 32) (number ks i false))
    (hv : Encodes (o.source d) s (.block i name (number ks i false) a) v)
    (hx : ∀ p, Encodes (o.source d) s a p → Lands table ((g ty).step d) s p good
      fun s' p => Encodes (o.target d) s' a p) :
    Lands table ((bare (variant o.host.variants o.native.variants ks
        (ks.map fun k => k.payload.map g))).step d) s v good
      fun s' v => Encodes (o.target d) s' (.block i name (number ks i false) a) v := by
  rw [step_variant]
  split
  · next h =>
      have same := source_eq_target (d := d) h.1
      have idle (p : Value) (hp : Encodes (o.source d) s a p) :
          good ∧ Encodes (o.target d) s a p := by
        have := hx p hp
        rw [step_of_isIdentity (payload_isIdentity hk h.2)] at this
        exact this.identity_inv
      cases hv with
      | tagged hc hp hkeyed =>
          obtain ⟨hg, hp⟩ := idle _ hp
          exact .identity hg fun s' hs => .tagged (same ▸ hc) (hp.later hs) hkeyed
      | numbered hc hp htag =>
          obtain ⟨hg, hp⟩ := idle _ hp
          exact .identity hg fun s' hs => .numbered (same ▸ hc) (hp.later hs) htag
  · obtain ⟨p, hdecode, hp⟩ := decode_block (g := g) (d := d) hk hn hv
    refine .of_layer fun s' hs => ?_
    simp only [applyLayer, hdecode, Run.ofExcept, pure_bind, getElem?_caseOf hk]
    have ends := (hx p hp s' hs).bind (f := fun _ u => Pure.pure
      (encode (o.target d).variants (ks.map (caseOf g d)) i (some u)))
        fun s₁ u _ _ hu => .pure (encode_block hk (counts_target hcount) hu)
    exact ends.imp (fun hg => ⟨hg, trivial⟩) fun _ _ _ hg hv => ⟨hg.1, hv⟩

end Constructors

end Marshal
