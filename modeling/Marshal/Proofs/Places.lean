import Marshal.Proofs.Ending
import Marshal.Proofs.Passing
import Marshal.Proofs.Representation

/-!
# Presence, place by place

A converter keeps the presence of a value and of all its parts. The parts of a value are those
that its type says it has, and a place says how to get to one: the third field, then the second
element. What stands at a place depends on how the side carries values (`World.Finds`); a field of
a keyed record that is left out stands there as absent. If a conversion succeeds, then whatever is
found at a place is found there again on the other side, absent if it was absent, null if it was
null, and present if it was present (`Session.Comes.keeps_presence`). Nothing is asked of the
value, so parts that do not fit their types are meant as well.

The proof is by induction on the place, through the fixpoint bodies.
-/

namespace Marshal

open Converter Planner PlanM Run World

/-! ## Places -/

/-- A way from a value to one of its parts. Fields, elements and constructors are counted as the
type lists them. -/
inductive Place where
  | field (index : Nat)
  | element (index : Nat)
  | payload (index : Nat)
  | contents

open Value in
/-- On a side that carries values so, with this store, a value of the composite type has at the
place this value of that type. -/
inductive Inside (o : Options) (side : Profile) (s : Store) :
    Term → Value → Place → TyId → Value → Prop
  | keyed {fields : List Field} {entries : List (String × Value)} {i : Nat} {f : Field} :
      side.records = .keyed → fields[i]? = some f →
      Inside o side s (.record fields) (.object entries) (.field i) f.ty (under f.name entries)
  | positional {fields : List Field} {items : List Value} {i : Nat} {f : Field} {u : Value} :
      side.records = .positional → fields[i]? = some f → items[i]? = some u →
      Inside o side s (.record fields) (.array items) (.field i) f.ty u
  | object {fields : List Field} {entries : List (String × Value)} {i : Nat} {f : Field} :
      fields[i]? = some f →
      Inside o side s (.object fields) (.object entries) (.field i) f.ty (under f.name entries)
  | tuple {tys : List TyId} {items : List Value} {i : Nat} {y : TyId} {u : Value} :
      tys[i]? = some y → items[i]? = some u →
      Inside o side s (.tuple tys) (.array items) (.element i) y u
  | array {y : TyId} {items : List Value} {i : Nat} {u : Value} : items[i]? = some u →
      Inside o side s (.array y) (.array items) (.element i) y u
  | tagged {ks : List Constructor} {entries : List (String × Value)} {i : Nat} {name : String}
      {y : TyId} : side.variants = .tagged → ks[i]? = some ⟨name, some y⟩ →
      o.Counts (2 ^ 32) (number ks i false) → findKey "tag" entries = some (.str name) →
      Inside o side s (.variant ks) (.object entries) (.payload i) y (under "value" entries)
  | numbered {ks : List Constructor} {tag : UInt32} {u : Value} {i : Nat} {name : String}
      {y : TyId} : side.variants = .indexed → ks[i]? = some ⟨name, some y⟩ →
      tag.toNat = number ks i false →
      Inside o side s (.variant ks) (.block tag [u]) (.payload i) y u
  | contents {y : TyId} {b : BoxId} {u : Value} : s.boxes[b.index]? = some u →
      Inside o side s (.ref y) (.box b) .contents y u

/-- Following the places from a value of the type, one finds this value. Options, nullables and
references are no places: their values are values of what they wrap. -/
inductive World.Finds (w : World) (side : Profile) (s : Store) :
    TyId → Value → List Place → Value → Prop
  | here {x : TyId} {v : Value} : Finds w side s x v [] v
  | wrapped {x y : TyId} {v u : Value} {places : List Place} : w.Wraps x y →
      Finds w side s y v places u → Finds w side s x v places u
  | inside {x y : TyId} {t : Term} {v v₁ u : Value} {place : Place} {places : List Place} :
      w.arena.term? x = some t → Inside w.options side s t v place y v₁ →
      Finds w side s y v₁ places u → Finds w side s x v (place :: places) u

section Finding

variable {w : World} {o : Options} {side : Profile} {s s' : Store} {t : Term} {x y : TyId}
  {u v : Value} {place : Place} {places : List Place}

theorem Inside.later (h : Inside o side s t v place y u) (hs : s.Within s') :
    Inside o side s' t v place y u := by
  cases h with
  | keyed hside hf => exact .keyed hside hf
  | positional hside hf hu => exact .positional hside hf hu
  | object hf => exact .object hf
  | tuple hy hu => exact .tuple hy hu
  | array hu => exact .array hu
  | tagged hside hk hcount htag => exact .tagged hside hk hcount htag
  | numbered hside hk htag => exact .numbered hside hk htag
  | contents hu => exact .contents (hs _ _ hu)

theorem Inside.unique {y' : TyId} {u' : Value} (h : Inside o side s t v place y u)
    (h' : Inside o side s t v place y' u') : y = y' ∧ u = u' := by
  cases h with
  | keyed _ hf => cases h' with
    | keyed _ hf' =>
      cases hf.symm.trans hf'
      exact ⟨rfl, rfl⟩
  | positional _ hf hu => cases h' with
    | positional _ hf' hu' =>
      cases hf.symm.trans hf'
      cases hu.symm.trans hu'
      exact ⟨rfl, rfl⟩
  | object hf => cases h' with
    | object hf' =>
      cases hf.symm.trans hf'
      exact ⟨rfl, rfl⟩
  | tuple hy hu => cases h' with
    | tuple hy' hu' =>
      cases hy.symm.trans hy'
      cases hu.symm.trans hu'
      exact ⟨rfl, rfl⟩
  | array hu => cases h' with
    | array hu' =>
      cases hu.symm.trans hu'
      exact ⟨rfl, rfl⟩
  | tagged _ hk => cases h' with
    | tagged _ hk' =>
      cases hk.symm.trans hk'
      exact ⟨rfl, rfl⟩
  | numbered _ hk => cases h' with
    | numbered _ hk' =>
      cases hk.symm.trans hk'
      exact ⟨rfl, rfl⟩
  | contents hu => cases h' with
    | contents hu' =>
      cases hu.symm.trans hu'
      exact ⟨rfl, rfl⟩

theorem Inside.not_wraps (h : Inside o side s t v place y u) (ht : w.arena.term? x = some t)
    {z : TyId} : ¬w.Wraps x z := by
  intro hw
  cases hw with
  | option ht' | nullable ht' => cases ht.symm.trans ht'; cases h
  | node hr =>
      have := hr.isReference ht
      cases h <;> cases this

namespace World.Finds

theorem nil_inv (h : w.Finds side s x v places u) (hp : places = []) : u = v := by
  induction h with
  | here => rfl
  | wrapped _ _ ih => exact ih hp
  | inside => cases hp

/-- There is one value at a place. -/
theorem unique (h : w.Finds side s x v places u) :
    ∀ {u'}, w.Finds side s x v places u' → u = u' := by
  induction h with
  | here => exact fun h' => (h'.nil_inv rfl).symm
  | wrapped hw h ih =>
      intro u' h'
      cases h' with
      | here => exact h.nil_inv rfl
      | wrapped hw' h' => exact ih (hw.unique hw'.edge ▸ h')
      | inside ht hin => exact absurd hw (hin.not_wraps ht)
  | inside ht hin _ ih =>
      intro u' h'
      cases h' with
      | wrapped hw => exact absurd hw (hin.not_wraps ht)
      | inside ht' hin' h' =>
          cases ht.symm.trans ht'
          obtain ⟨rfl, rfl⟩ := hin.unique hin'
          exact ih h'

/-- Absence and null have no parts. -/
theorem blank_inv (h : w.Finds side s x v places u) (hv : v = .absent ∨ v = .null) :
    places = [] ∧ u = v := by
  induction h with
  | here => exact ⟨rfl, rfl⟩
  | wrapped _ _ ih => exact ih hv
  | inside _ hin => cases hin <;> rcases hv with hv | hv <;> cases hv

end World.Finds

end Finding

/-! ## Fields -/

section Fields

open Value Assembly

variable {table : FixTable} {s s' : Store} {d : Direction} {fields : List Field}
  {conv : Field → Converter} {entries : List (String × Value)} {items : List Value} {v' : Value}
  {slots : List RecordSlot}

theorem fieldSteps_filter : fieldSteps fields (fields.map conv) d =
    (fields.filter fun f => !(conv f).isIdentity).map fun f => .atField f.name ((conv f).step d) := by
  rw [fieldSteps, ← List.map_prod_left_eq_zip, List.filter_map, List.map_map]
  rfl

/-- Each field is taken over under its name, those that need no conversion as they are. -/
theorem fieldSteps_convey (hn : (fields.map Field.name).Nodup)
    (hkeep : ∀ f ∈ fields, KeepsPresence table ((conv f).step d))
    (h : PassesAll table (fieldSteps fields (fields.map conv) d) s s' (.object entries) v') :
    ∃ entries', v' = .object entries' ∧ ∀ f ∈ fields,
      Conveys table ((conv f).step d) s s' (under f.name entries) (under f.name entries') := by
  have within := h.within
  rw [fieldSteps_filter] at h
  obtain ⟨entries', rfl, apart, moved⟩ := h.fields Field.name (fun f => (conv f).step d)
    (hn.sublist ((List.filter_sublist).map _)) fun f hf => hkeep f (List.mem_filter.mp hf).1
  refine ⟨entries', rfl, fun f hf => ?_⟩
  cases hi : (conv f).isIdentity with
  | false => exact moved f (List.mem_filter.mpr ⟨hf, by simp [hi]⟩)
  | true =>
      have still : f.name ∉ (fields.filter fun f => !(conv f).isIdentity).map Field.name := by
        intro hmem
        obtain ⟨g, hg, hname⟩ := List.mem_map.mp hmem
        obtain ⟨hg, hmoved⟩ := List.mem_filter.mp hg
        cases List.inj_on_of_nodup_map hn hg hf hname
        simp [hi] at hmoved
      rw [apart _ still, step_of_isIdentity hi]
      exact .inr (.identity within _)

end Fields

/-! ## Layers -/

section Layers

open Value Assembly

variable {w : World} {o : Options} {table : FixTable} {s s' : Store} {d : Direction} {t : Term}
  {l : Layer} {x y : TyId} {fields : List Field} {slots : List RecordSlot} {conv : Field → Converter}
  {cs : TyId → Content} {content : Content} {c : Converter} {place : Place} {u v v' : Value}
  {items : List Value}

/-- Where the value may be left out, the converter is run on it if it is there. -/
theorem conveys_omittable (h : Conveys table ((bare (c.wrapped .mapOption)).step d) s s' u v) :
    Conveys table (c.step d) s s' u v := by
  refine h.elim .inl fun h => ?_
  rw [step_wrapped] at h
  split at h
  · next hi =>
      rw [step_of_isIdentity hi]
      exact .inr h
  · exact h.mapOption

theorem conveys_wrap {p : Part} (h : Conveys table ((bare (p.wrap content)).step d) s s' u v) :
    Conveys table ((bare content).step d) s s' u v := by
  rcases p.bare_wrap content with hp | hp <;> rw [hp] at h
  · exact h
  · exact conveys_omittable h

theorem keeps_wrap {p : Part} (h : KeepsPresence table ((bare content).step d)) :
    KeepsPresence table ((bare (p.wrap content)).step d) := by
  intro depth u u' s s' hrun
  rcases conveys_wrap (.inr (.of_run hrun)) with ⟨rfl, rfl⟩ | ⟨n, τ, τ', -, hrun, -⟩
  · exact .refl _
  · exact h n u u' τ τ' hrun

theorem positional_conveys {cs : List Converter}
    (h : Passes table ((bare (positional cs)).step d) s s' (.array items) v') :
    ∃ items', v' = .array items' ∧ ∀ (i : Nat) u c, items[i]? = some u → cs[i]? = some c →
      ∃ u', items'[i]? = some u' ∧ Passes table (c.step d) s s' u u' := by
  have within := h.within
  rw [step_positional] at h
  split at h
  · next hall =>
      cases h.identity_inv
      refine ⟨items, rfl, fun i u c hu hc => ⟨u, hu, ?_⟩⟩
      rw [step_of_isIdentity (List.all_eq_true.mp hall c (List.mem_of_getElem? hc))]
      exact .identity within u
  · obtain ⟨_, items', ⟨⟩, rfl, each⟩ := h.mapElements
    refine ⟨items', rfl, fun i u c hu hc => each i u _ hu ?_⟩
    rw [List.getElem?_map, hc]
    rfl

theorem slots_at (hslots : slots.map RecordSlot.name = fields.map Field.name) {i : Nat} {f : Field}
    (hf : fields[i]? = some f) : ∃ slot, slots[i]? = some slot ∧ slot.name = f.name := by
  have := congrArg (fun names => names[i]?) hslots
  simpa [hf] using this

theorem record_conveys (hn : (fields.map Field.name).Nodup)
    (hslots : slots.map RecordSlot.name = fields.map Field.name)
    (hkeep : ∀ f ∈ fields, KeepsPresence table ((conv f).step d))
    (hin : Inside o (o.source d) s (.record fields) v place y u)
    (h : Passes table ((bare (record o.host.records o.native.records fields slots
      (fields.map conv))).step d) s s' v v') :
    ∃ f ∈ fields, f.ty = y ∧ ∃ u', Inside o (o.target d) s' (.record fields) v' place y u' ∧
      Conveys table ((conv f).step d) s s' u u' := by
  rw [step_record] at h
  cases hin with
  | @keyed _ entries i f hsource hf =>
      have hmem := List.mem_of_getElem? hf
      rw [hsource] at h
      cases htarget : (o.target d).records with
      | keyed =>
          rw [htarget] at h
          obtain ⟨entries', rfl, conveyed⟩ := fieldSteps_convey hn hkeep (.seq h)
          exact ⟨f, hmem, rfl, _, .keyed htarget hf, conveyed f hmem⟩
      | positional =>
          rw [htarget] at h
          obtain ⟨r, s₁, hfields, hwrap⟩ := PassesAll.append_inv (.seq h)
          obtain ⟨entries', rfl, conveyed⟩ := fieldSteps_convey hn hkeep hfields
          have within := hwrap.within
          cases hwrap with
          | cons hwrap hnil =>
              cases hnil
              obtain ⟨items, rfl, found⟩ := wrapRecord_at hwrap.wrapRecord
              obtain ⟨slot, hslot, hname⟩ := slots_at hslots hf
              exact ⟨f, hmem, rfl, _, .positional htarget hf (hname ▸ found i slot hslot),
                (conveyed f hmem).mono (.refl s) within⟩
  | @positional _ items i f u hsource hf hu =>
      have hmem := List.mem_of_getElem? hf
      rw [hsource] at h
      cases htarget : (o.target d).records with
      | keyed =>
          rw [htarget] at h
          cases PassesAll.seq h with
          | cons hunwrap hfields =>
              obtain ⟨entries, rfl, found⟩ :=
                unwrapRecord_at hunwrap.unwrapRecord (hslots ▸ hn)
              obtain ⟨entries', rfl, conveyed⟩ := fieldSteps_convey hn hkeep hfields
              obtain ⟨slot, hslot, hname⟩ := slots_at hslots hf
              have here : under f.name entries = u := hname ▸ found i slot u hslot hu
              exact ⟨f, hmem, rfl, _, .keyed htarget hf,
                here ▸ (conveyed f hmem).mono hunwrap.within (.refl s')⟩
      | positional =>
          rw [htarget] at h
          obtain ⟨items', rfl, each⟩ := positional_conveys h
          have hconv : (fields.map conv)[i]? = some (conv f) := by rw [List.getElem?_map, hf]; rfl
          obtain ⟨u', hu', passed⟩ := each i u _ hu hconv
          exact ⟨f, hmem, rfl, u', .positional htarget hf hu', .inr passed⟩

theorem object_conveys (hn : (fields.map Field.name).Nodup)
    (hkeep : ∀ f ∈ fields, KeepsPresence table ((conv f).step d))
    (hin : Inside o (o.source d) s (.object fields) v place y u)
    (h : Passes table ((bare (keyed fields (fields.map conv))).step d) s s' v v') :
    ∃ f ∈ fields, f.ty = y ∧ ∃ u', Inside o (o.target d) s' (.object fields) v' place y u' ∧
      Conveys table ((conv f).step d) s s' u u' := by
  rw [step_keyed] at h
  cases hin with
  | @object _ entries i f hf =>
      have hmem := List.mem_of_getElem? hf
      obtain ⟨entries', rfl, conveyed⟩ := fieldSteps_convey hn hkeep (.seq h)
      exact ⟨f, hmem, rfl, _, .object hf, conveyed f hmem⟩

theorem tuple_conveys {tys : List TyId} {conv : TyId → Converter}
    (hin : Inside o (o.source d) s (.tuple tys) v place y u)
    (h : Passes table ((bare (positional (tys.map conv))).step d) s s' v v') :
    y ∈ tys ∧ ∃ u', Inside o (o.target d) s' (.tuple tys) v' place y u' ∧
      Passes table ((conv y).step d) s s' u u' := by
  cases hin with
  | @tuple _ items i y u hy hu =>
      obtain ⟨items', rfl, each⟩ := positional_conveys h
      have hconv : (tys.map conv)[i]? = some (conv y) := by rw [List.getElem?_map, hy]; rfl
      obtain ⟨u', hu', passed⟩ := each i u _ hu hconv
      exact ⟨List.mem_of_getElem? hy, u', .tuple hy hu', passed⟩

theorem array_conveys (hin : Inside o (o.source d) s (.array x) v place y u)
    (h : Passes table ((bare (c.wrapped .mapArray)).step d) s s' v v') :
    y = x ∧ ∃ u', Inside o (o.target d) s' (.array x) v' place y u' ∧
      Passes table (c.step d) s s' u u' := by
  have within := h.within
  rw [step_wrapped] at h
  cases hin with
  | @array _ items i u hu =>
      split at h
      · next hi =>
          cases h.identity_inv
          rw [step_of_isIdentity hi]
          exact ⟨rfl, u, .array hu, .identity within u⟩
      · obtain ⟨_, items', ⟨⟩, rfl, each⟩ := h.mapArray
        obtain ⟨u', hu', passed⟩ := each i u hu
        exact ⟨rfl, u', .array hu', passed⟩

theorem cell_conveys (hin : Inside o (o.source d) s (.ref x) v place y u)
    (hcontent : content = some (.passBox .identity, .passBox .identity) ∧ c.content = none ∨
      content = c.wrapped .rebuildBox ∧ c.content ≠ none)
    (h : Passes table ((bare content).step d) s s' v v') :
    y = x ∧ ∃ u', Inside o (o.target d) s' (.ref x) v' place y u' ∧
      Passes table (c.step d) s s' u u' := by
  have within := h.within
  cases hin with
  | @contents _ b u hu =>
      rcases hcontent with ⟨rfl, hnone⟩ | ⟨rfl, hsome⟩
      · have passed : Passes table (.passBox .identity) s s' (.box b) v' := by cases d <;> exact h
        cases passed.passBox
        rw [step_of_isIdentity ((isIdentity_iff c).mpr hnone)]
        exact ⟨rfl, u, .contents (within _ _ hu), .identity within u⟩
      · rw [step_wrapped, if_neg fun hi => hsome ((isIdentity_iff c).mp hi)] at h
        obtain ⟨b', u', rfl, hu', passed⟩ := h.rebuildBox hu
        exact ⟨rfl, u', .contents hu', passed⟩

theorem variant_conveys {ks : List Constructor} (conv : TyId → Converter)
    (hn : (ks.map Constructor.name).Nodup)
    (hin : Inside o (o.source d) s (.variant ks) v place y u)
    (h : Passes table ((bare (variant o.host.variants o.native.variants ks
      (ks.map fun k => k.payload.map conv))).step d) s s' v v') :
    (∃ name, ⟨name, some y⟩ ∈ ks) ∧ ∃ u', Inside o (o.target d) s' (.variant ks) v' place y u' ∧
      Passes table ((conv y).step d) s s' u u' := by
  have within := h.within
  rw [step_variant] at h
  -- A payload is read off what the value carries, and put into what it becomes.
  have payload {i : Nat} {name : String} {y : TyId} {u : Value}
      (hk : ks[i]? = some ⟨name, some y⟩) (hcount : o.Counts (2 ^ 32) (number ks i false))
      (hcarries : Variant.Carries (ks.map (caseOf conv d)) (o.source d).variants i (some u) v)
      (hpass : Passes table (.retag (o.source d).variants (o.target d).variants
        (ks.map (caseOf conv d))) s s' v v') :
      ∃ u', Inside o (o.target d) s' (.variant ks) v' (.payload i) y u' ∧
        Passes table ((conv y).step d) s s' u u' := by
    obtain ⟨j, found, hdecode, below⟩ := hpass.retag
    cases (hcarries.decodes (names_caseOf ▸ hn)).symm.trans hdecode
    have hcase := getElem?_caseOf (g := conv) (d := d) hk
    obtain ⟨u', rfl, passed⟩ := below ((conv y).step d) u (by rw [hcase]; rfl) rfl
    refine ⟨u', ?_, passed⟩
    rw [Variant.encode, hcase]
    cases htarget : (o.target d).variants with
    | tagged =>
        have inside : Inside o (o.target d) s' (.variant ks)
            (.object [("tag", .str name), ("value", u')]) (.payload i) y
            (under "value" [("tag", .str name), ("value", u')]) :=
          .tagged htarget hk hcount rfl
        have stands : under "value" [("tag", .str name), ("value", u')] = u' := by
          cases u' <;> rfl
        rwa [stands] at inside
    | indexed =>
        refine .numbered htarget hk ?_
        rw [show (caseOf conv d ⟨name, some y⟩).isNullary = false from rfl, number_caseOf]
        exact UInt32.toNat_ofNat_of_lt' (counts_target hcount htarget)
  -- If nothing is done to a variant, its carrier is the same on both sides.
  have still {i : Nat} {name : String} {y : TyId} {u : Value} (hk : ks[i]? = some ⟨name, some y⟩)
      (hall : allIdentity ((ks.map fun k => k.payload.map conv).filterMap fun p => p) = true) :
      Passes table ((conv y).step d) s s' u u := by
    rw [step_of_isIdentity (payload_isIdentity hk hall)]
    exact .identity within u
  cases hin with
  | @tagged _ entries i name y hsource hk hcount htag =>
      refine ⟨⟨name, List.mem_of_getElem? hk⟩, ?_⟩
      split at h
      · next hsame =>
          cases h.identity_inv
          have htarget := (source_eq_target (d := d) hsame.1).symm.trans hsource
          exact ⟨_, .tagged htarget hk hcount htag, still hk hsame.2⟩
      · exact payload hk hcount
          (hsource ▸ .tagged (getElem?_caseOf hk) rfl htag) h
  | @numbered _ tag u i name y hsource hk htag =>
      refine ⟨⟨name, List.mem_of_getElem? hk⟩, ?_⟩
      split at h
      · next hsame =>
          cases h.identity_inv
          have htarget := (source_eq_target (d := d) hsame.1).symm.trans hsource
          exact ⟨u, .numbered htarget hk htag, still hk hsame.2⟩
      · exact payload hk (fun _ => htag ▸ tag.toNat_lt)
          (hsource ▸ .block (getElem?_caseOf hk) rfl (htag.trans (number_caseOf false).symm)) h

/-- Whatever is at a place of a value is taken to what is there afterwards, by the converter of its
own type. -/
theorem Inside.conveys (hl : w.layer? x t = some l) (hbefore : w.Answers l.before (.ok ()))
    (hassemble : w.Answers (l.assemble (l.parts.map fun p => bare (p.wrap (cs p.ty)))) (.ok content))
    (hkeep : ∀ p ∈ l.parts, KeepsPresence table ((bare (cs p.ty)).step d))
    (hin : Inside w.options (w.options.source d) s t v place y u)
    (h : Passes table ((bare content).step d) s s' v v') :
    ∃ p ∈ l.parts, p.ty = y ∧ ∃ u', Inside w.options (w.options.target d) s' t v' place y u' ∧
      Conveys table ((bare (cs y)).step d) s s' u u' := by
  have run := hassemble (blank w.arena) rfl
  have ofField {fields : List Field} (hparts : l.parts = fields.map Part.ofField)
      (hfield : ∃ f ∈ fields, f.ty = y ∧ ∃ u',
        Inside w.options (w.options.target d) s' t v' place y u' ∧
          Conveys table ((fieldConverter cs f).step d) s s' u u') :
      ∃ p ∈ l.parts, p.ty = y ∧ ∃ u', Inside w.options (w.options.target d) s' t v' place y u' ∧
        Conveys table ((bare (cs y)).step d) s s' u u' := by
    obtain ⟨f, hf, rfl, u', hin', conveyed⟩ := hfield
    refine ⟨.ofField f, hparts ▸ List.mem_map_of_mem hf, rfl, u', hin', ?_⟩
    rw [fieldConverter, ← wrap_ofField] at conveyed
    exact conveys_wrap conveyed
  cases t with
  | scalar | var | opaqueTy | named | option | nullable | function => cases hin
  | record fields =>
      cases hl
      dsimp only at run
      rw [fieldConverters fields] at run
      obtain ⟨slots, hslots, rfl⟩ := assemble_record run
      refine ofField rfl (record_conveys (uniqueFields_spec hbefore) hslots (fun f hf => ?_) hin h)
      rw [fieldConverter, ← wrap_ofField]
      exact keeps_wrap (hkeep (.ofField f) (List.mem_map_of_mem hf))
  | object fields =>
      cases hl
      dsimp only at run
      rw [fieldConverters fields] at run
      cases run
      refine ofField rfl (object_conveys (uniqueFields_spec hbefore) (fun f hf => ?_) hin h)
      rw [fieldConverter, ← wrap_ofField]
      exact keeps_wrap (hkeep (.ofField f) (List.mem_map_of_mem hf))
  | tuple tys =>
      cases hl
      dsimp only at run
      rw [ofElements_converters cs 0 tys] at run
      cases run
      obtain ⟨hy, u', hin', passed⟩ := tuple_conveys hin h
      obtain ⟨p, hp, rfl⟩ := mem_ofElements 0 hy
      exact ⟨p, hp, rfl, u', hin', .inr passed⟩
  | variant ks =>
      cases hl
      dsimp only at run
      rw [payloadConverters] at run
      cases run
      obtain ⟨⟨name, hk⟩, u', hin', passed⟩ :=
        variant_conveys (fun ty => bare (cs ty)) (uniqueConstructors_spec hbefore) hin h
      exact ⟨_, List.mem_filterMap.mpr ⟨_, hk, rfl⟩, rfl, u', hin', .inr passed⟩
  | array e =>
      cases hl
      cases run
      obtain ⟨rfl, u', hin', passed⟩ := array_conveys hin h
      exact ⟨_, List.mem_singleton_self _, rfl, u', hin', .inr passed⟩
  | ref e =>
      cases hl
      have hcontent := assemble_cell run
      obtain ⟨rfl, u', hin', passed⟩ :=
        cell_conveys hin (hcontent.imp_right fun h => ⟨h.1, h.2.1⟩) h
      exact ⟨_, List.mem_singleton_self _, rfl, u', hin', .inr passed⟩

end Layers

/-! ## All the way down -/

section Descending

variable {w : World} {table : FixTable} {σ : Store} {d : Direction} {x : TyId}
  {content : Assembly.Content} {places : List Place} {u v : Value}
variable (hbodies : ∀ u body, w.Deferrable u → table.find? u = some body → w.Body u body.content)
include hbodies

theorem World.Canon.keeps (hg : w.Good x) (hc : w.Canon x content) :
    KeepsPresence table ((bare content).step d) := by
  have orderly {x : TyId} {content : Assembly.Content} (hg : w.Good x) (hc : w.Canon x content) :
      (bare content).Orderly True w.Deferrable :=
    hc.orderly hg (fun _ _ _ _ => trivial) fun _ _ hu => hu
  have closed (u : TyId) (body : Converter) (hu : w.Deferrable u) (hbody : table.find? u = some body)
      (d : Direction) : Step.Faithful w.Deferrable (body.step d) := by
    obtain ⟨r, hr, hc⟩ := hbodies u body hu hbody
    exact (orderly_strip.mp (orderly (hu.1.edge (.node hr)) hc) d).faithful
  exact fun depth v v' s s' hrun => applyWithin_samePresence closed (orderly hg hc d).faithful hrun

/-- What is found in a value before a conversion is found there afterwards. By induction on the
places, for the converters of all types on the way. -/
theorem World.Finds.conveyed (h : w.Finds (w.options.source d) σ x v places u) :
    ∀ {content : Assembly.Content} {s s' : Store} {v' : Value}, w.Good x → w.Canon x content →
      σ.Within s → Conveys table ((bare content).step d) s s' v v' →
      ∃ u', w.Finds (w.options.target d) s' x v' places u' ∧ u.SamePresence u' := by
  have blank {x : TyId} {v u : Value} {places : List Place} {s' : Store}
      (h : w.Finds (w.options.source d) σ x v places u) (hv : v = .absent ∨ v = .null) :
      ∃ u', w.Finds (w.options.target d) s' x v places u' ∧ u.SamePresence u' := by
    obtain ⟨rfl, rfl⟩ := h.blank_inv hv
    exact ⟨u, .here, .refl u⟩
  induction h with
  | here =>
      intro content s s' v' hg hc _ hconv
      refine ⟨v', .here, ?_⟩
      rcases hconv with ⟨rfl, rfl⟩ | ⟨depth, τ, τ', -, hrun, -⟩
      · exact .refl _
      · exact hc.keeps hbodies hg depth _ _ τ τ' hrun
  | @wrapped x y v u places hw hfinds ih =>
      intro content s s' v' hg hc hs hconv
      rcases hconv with ⟨rfl, rfl⟩ | hpass
      · exact blank (.wrapped hw hfinds) (.inl rfl)
      suffices h : ∃ u', w.Finds (w.options.target d) s' y v' places u' ∧ u.SamePresence u' from
        h.imp fun _ h => ⟨.wrapped hw h.1, h.2⟩
      have hgy := hg.edge hw.edge
      cases hw with
      | option ht =>
          obtain ⟨-, -, cs, hcs, hassemble⟩ := hc.layer_inv ht rfl
          cases (Answers.pure _).unique hassemble
          exact ih hgy (hcs (.inner y) (List.mem_singleton_self _)) hs
            (conveys_omittable (.inr hpass))
      | nullable ht =>
          obtain ⟨-, -, cs, hcs, hassemble⟩ := hc.layer_inv ht rfl
          cases (Answers.pure _).unique hassemble
          have passed : Passes table (.mapNullable ((bare (cs y)).step d)) s s' v v' := by
            cases d <;> exact hpass
          rcases passed.mapNullable with ⟨hv, rfl⟩ | passed
          · exact blank hfinds hv
          · exact ih hgy (hcs (.inner y) (List.mem_singleton_self _)) hs (.inr passed)
      | @node r hr =>
          rcases hc.reference_inv hr with ⟨-, hcanon⟩ | ⟨hrec, hreg, ⟨rfl, hidle⟩ | ⟨rfl, hconv⟩⟩
          · exact ih hgy hcanon hs (.inr hpass)
          · -- What crosses unchanged does so behind the reference, too.
            obtain ⟨c, hcanon⟩ := hgy.fine.canon
            cases hcanon.eq_none_iff.mpr ((converts_node hr).not.mp hidle)
            exact ih hgy hcanon hs (.inr hpass)
          · have passed : Passes table (.recurse x d) s s' v v' := by cases d <;> exact hpass
            obtain ⟨body, hbody, passed⟩ := passed.recurse
            obtain ⟨r', hr', hcanon⟩ := hbodies x body ⟨hg, ⟨r, hr, hrec, hreg⟩, hconv⟩ hbody
            cases hr.unique hr'
            rw [← step_strip] at passed
            exact ih hgy hcanon hs (.inr passed)
  | @inside x y t v v₁ u place places ht hin hfinds ih =>
      intro content s s' v' hg hc hs hconv
      rcases hconv with ⟨rfl, rfl⟩ | hpass
      · exact blank (.inside ht hin hfinds) (.inl rfl)
      obtain ⟨l, hl⟩ : ∃ l, w.layer? x t = some l := by cases hin <;> exact ⟨_, rfl⟩
      obtain ⟨hbefore, -, cs, hcs, hassemble⟩ := hc.layer_inv ht hl
      rw [Assembles, zipWith_wrap, List.map_map] at hassemble
      have good (p : Part) (hp : p ∈ l.parts) : w.Good p.ty := hg.edge (.part ht hl hp)
      obtain ⟨p, hp, rfl, u₁, hin', conveyed⟩ := Inside.conveys hl hbefore hassemble
        (fun p hp => (hcs p hp).keeps hbodies (good p hp)) (hin.later hs) hpass
      obtain ⟨u', hfound, same⟩ := ih (good p hp) (hcs p hp) hs conveyed
      exact ⟨u', .inside ht hin' hfound, same⟩

end Descending

/-! ## What a session plans -/

/-- A conversion that succeeds changes nothing about presence: not about that of the whole value,
not at any step that it comes to on its way, and not at any place. Here `half` is a half of the
converter, or of the converter of a place where the value may be left out, and `table` holds
bodies of the planner. -/
theorem Session.Comes.keeps_presence {catalog : Catalog} {options : Options} {S : Session}
    {p : Planner} {n i : Nat} {ty : TyId} {c : Converter} {s : PlanState}
    (hS : Comes catalog options S) (hp : S.planners[i]? = some p) (hx : S.shared.arena.Has ty)
    (hrun : planWithin catalog options n ty ⟨S.shared, p⟩ = (.ok c, s)) {table : FixTable}
    (htable : ∀ u body, table.find? u = some body → s.planner.fixpoints.find? u = some body)
    {d : Direction} {half : Step} (hhalf : half = c.step d ∨ half = .mapOption (c.step d))
    {b : Arena} (hb : b.Sound) (hsb : s.shared.arena.Within b) :
    (∀ step, half.Meets table step → ∀ depth v v' σ σ',
      applyWithin table depth step v σ = (.ok v', σ') →
        (v = .absent ↔ v' = .absent) ∧ (v = .null ↔ v' = .null)) ∧
    ∀ depth v v' σ σ', applyWithin table depth half v σ = (.ok v', σ') →
      ∀ places u, World.Finds ⟨catalog, options, b⟩ (options.source d) σ ty v places u →
        ∃ u', (∀ z, World.Finds ⟨catalog, options, b⟩ (options.target d) σ' ty v' places z ↔
            z = u') ∧
          (u = .absent ↔ u' = .absent) ∧ (u = .null ↔ u' = .null) := by
  constructor
  · obtain ⟨Q, hc, hbodies⟩ := hS.faithful hp hx hrun
    have closed (u : TyId) (body : Converter) (hu : Q u) (hbody : table.find? u = some body) :
        ∀ d, Step.Faithful Q (body.step d) :=
      hbodies u body hu (htable u body hbody)
    have faithful : Step.Faithful Q half := by
      rcases hhalf with rfl | rfl
      · exact hc d
      · exact .mapOption (hc d)
    exact fun step hstep depth v v' σ σ' hends =>
      applyWithin_samePresence closed (faithful.meets closed hstep) hends
  · intro depth v v' σ σ' hends places u hfound
    obtain ⟨hgood, hcanon, -, -⟩ := hS.planned hp hx hrun hb hsb
    have conveyed : Conveys table ((bare c.content).step d) σ σ' v v' := by
      rw [show bare c.content = c.strip from rfl, step_strip]
      rcases hhalf with rfl | rfl
      · exact .inr (.of_run hends)
      · exact (Passes.of_run hends).mapOption
    obtain ⟨u', hfound', same⟩ := World.Finds.conveyed (w := ⟨catalog, options, b⟩)
      (fun u body hu hbody => hS.body hp hx hrun hb hsb hu (htable u body hbody))
      hfound hgood hcanon (.refl σ) conveyed
    exact ⟨u', fun z => ⟨fun hz => (hfound'.unique hz).symm, fun hz => hz ▸ hfound'⟩, same⟩

namespace Chain

/-- On the other side. -/
def row : Value := .array [.array [.absent, .int 3], .null]

theorem converted : applyWithin table 12 (.mapOption (converter.step .forward)) object .empty =
    (.ok row, .empty) := rfl

/-- The second link of the chain does not go on. -/
theorem finds_absent : world.Finds Options.standard.host .empty chain object
    [.field 0, .field 0] .absent := by
  have inner : world.Finds Options.standard.host .empty chain (.object [("mark", .int 3)])
      [.field 0] .absent :=
    .wrapped (.node resolves) (.inside rfl (.keyed rfl (i := 0) rfl) .here)
  exact .wrapped (.node resolves)
    (.inside rfl (.keyed rfl (i := 0) rfl) (.wrapped (.option rfl) inner))

theorem finds_null : world.Finds Options.standard.host .empty chain object [.field 1] .null :=
  .wrapped (.node resolves) (.inside rfl (.keyed rfl (i := 1) rfl) .here)

end Chain

/-- In one record a link that is left out and a mark that is null stay apart. -/
theorem Session.Comes.keeps_presence_chain :
    applyWithin Chain.table 12 (.mapOption (Chain.converter.step .forward)) Chain.object .empty =
        (.ok Chain.row, .empty) ∧
      (∀ z, Chain.world.Finds Options.standard.native .empty Chain.chain Chain.row
        [.field 0, .field 0] z ↔ z = .absent) ∧
      ∀ z, Chain.world.Finds Options.standard.native .empty Chain.chain Chain.row
        [.field 1] z ↔ z = .null := by
  have kept := (Session.Comes.keeps_presence Chain.comes (i := 0) (p := .new true) rfl (by decide)
    Chain.planned_eq (fun _ _ h => Chain.planned_spec.2.2 ▸ h) (d := .forward) (.inr rfl)
    Chain.sound (Chain.planned_spec.2.1 ▸ .refl _)).2 _ _ _ _ _ Chain.converted
  obtain ⟨u, found, habsent, -⟩ := kept _ _ Chain.finds_absent
  obtain ⟨u', found', -, hnull⟩ := kept _ _ Chain.finds_null
  exact ⟨Chain.converted, habsent.mp rfl ▸ found, hnull.mp rfl ▸ found'⟩

end Marshal
