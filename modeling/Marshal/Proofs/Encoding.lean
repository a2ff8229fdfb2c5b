import Mathlib.Algebra.Group.Nat.Hom
import Marshal.Proofs.Canonical
import Marshal.Proofs.Conversion

/-!
# Values and how they are carried

A value of a type, whatever carries it, is an `Abstract`: a tree that says which
constructor was taken, what the fields are, what is absent. `Holds` says which
abstract values a type has, `Encodes` how a side with some profile carries one:

- a record is an object or an array, as the side carries records; absence is a key
  left out, or an absent element;
- a variant is a name or a tagged object, or else a number or a block;
- a cell is a handle, and its contents are in the store.

Every value of a type has an encoding on both sides (`Holds.encodes`).
-/

namespace Marshal

open Planner

/-! ## Abstract values -/

/-- A value without its carrier. A constructor comes with its place among all and
with its number among those of its sort. -/
inductive Abstract where
  /-- Handed over as it is. -/
  | plain (v : Value)
  | record (names : List String) (items : List Abstract)
  | object (names : List String) (items : List Abstract)
  /-- A tuple, or an array. -/
  | row (items : List Abstract)
  | constant (index : Nat) (name : String) (number : Nat)
  | block (index : Nat) (name : String) (number : Nat) (payload : Abstract)
  | none
  | some (a : Abstract)
  | null
  | value (a : Abstract)
  | cell (contents : Abstract)

namespace Abstract

/-- The value is carried as absence. -/
def isBlank : Abstract → Bool
  | .plain v => v.isAbsent
  | .none => true
  | .some a | .value a => a.isBlank
  | _ => false

/-- The value is carried as null. -/
def isNull : Abstract → Bool
  | .plain v => v.isNull
  | .null => true
  | .some a | .value a => a.isNull
  | _ => false

end Abstract

open Value in
/-- How a side carries a value, with this store. -/
inductive Encodes (side : Profile) (s : Store) : Abstract → Value → Prop
  | plain {v : Value} : Encodes side s (.plain v) v
  | keyed {names : List String} {as : List Abstract} {vs : List Value}
      {entries : List (String × Value)} : side.records = .keyed → vs.length = as.length →
      (∀ x ∈ as.zip vs, Encodes side s x.1 x.2) → Keyed entries (names.zip vs) →
      Encodes side s (.record names as) (.object entries)
  | positional {names : List String} {as : List Abstract} {vs : List Value} :
      side.records = .positional → vs.length = as.length →
      (∀ x ∈ as.zip vs, Encodes side s x.1 x.2) → Encodes side s (.record names as) (.array vs)
  | object {names : List String} {as : List Abstract} {vs : List Value}
      {entries : List (String × Value)} : vs.length = as.length →
      (∀ x ∈ as.zip vs, Encodes side s x.1 x.2) → Keyed entries (names.zip vs) →
      Encodes side s (.object names as) (.object entries)
  | row {as : List Abstract} {vs : List Value} : vs.length = as.length →
      (∀ x ∈ as.zip vs, Encodes side s x.1 x.2) → Encodes side s (.row as) (.array vs)
  | name {index : Nat} {name : String} {number : Nat} : side.variants = .tagged →
      Encodes side s (.constant index name number) (.str name)
  | number {index : Nat} {name : String} {n : Int64} {number : Nat} :
      side.variants = .indexed → n.toInt = number →
      Encodes side s (.constant index name number) (.int n)
  | tagged {index : Nat} {name : String} {number : Nat} {a : Abstract} {v : Value}
      {entries : List (String × Value)} : side.variants = .tagged → Encodes side s a v →
      Keyed entries [("tag", .str name), ("value", v)] →
      Encodes side s (.block index name number a) (.object entries)
  | numbered {index : Nat} {name : String} {number : Nat} {a : Abstract} {v : Value}
      {tag : UInt32} : side.variants = .indexed → Encodes side s a v → tag.toNat = number →
      Encodes side s (.block index name number a) (.block tag [v])
  | none : Encodes side s .none .absent
  | some {a : Abstract} {v : Value} : Encodes side s a v → Encodes side s (.some a) v
  | null : Encodes side s .null .null
  | value {a : Abstract} {v : Value} : Encodes side s a v → Encodes side s (.value a) v
  | cell {a : Abstract} {b : BoxId} : b.index < s.boxes.size → Encodes side s a (s.read b) →
      Encodes side s (.cell a) (.box b)

namespace Encodes

variable {side other : Profile} {s s' : Store} {a : Abstract} {v : Value}

/-- Cells that are added later play no part. -/
theorem later (h : Encodes side s a v) (hs : s.Within s') : Encodes side s' a v := by
  induction h with
  | plain => exact .plain
  | keyed hc hlen _ hk ih => exact .keyed hc hlen ih hk
  | positional hc hlen _ ih => exact .positional hc hlen ih
  | object hlen _ hk ih => exact .object hlen ih hk
  | row hlen _ ih => exact .row hlen ih
  | name hc => exact .name hc
  | number hc hn => exact .number hc hn
  | tagged hc _ hk ih => exact .tagged hc ih hk
  | numbered hc _ hn ih => exact .numbered hc ih hn
  | none => exact .none
  | some _ ih => exact .some ih
  | null => exact .null
  | value _ ih => exact .value ih
  | cell hb _ ih =>
      obtain ⟨hb', hread⟩ := hs.read hb
      exact .cell hb' (hread ▸ ih)

theorem isAbsent (h : Encodes side s a v) : v.isAbsent = a.isBlank := by
  induction h with
  | some _ ih | value _ ih => exact ih
  | _ => rfl

theorem isNull (h : Encodes side s a v) : v.isNull = a.isNull := by
  induction h with
  | some _ ih | value _ ih => exact ih
  | _ => rfl

/-- Absence and null are carried by all sides alike. -/
theorem of_blank (h : Encodes side s a v) (ha : a.isBlank = true ∨ a.isNull = true) :
    Encodes other s' a v := by
  induction h with
  | plain => exact .plain
  | none => exact .none
  | null => exact .null
  | some _ ih => exact .some (ih ha)
  | value _ ih => exact .value (ih ha)
  | _ => rcases ha with ha | ha <;> cases ha

end Encodes

/-! ## Values of a type -/

/-- A place for a value: one of the type, which may be left out. -/
structure Spot where
  ty : TyId
  omittable : Bool

def Field.spot (f : Field) : Spot := ⟨f.ty, f.optional⟩

/-- A value of a scalar type. -/
def Scalar.Fits : Scalar → Value → Prop
  | .unit, .unit | .bool, .bool _ | .int, .int _ | .float, .float _ | .string, .str _ => True
  | _, _ => False

/-- How many constructors of the sort of the one at `index` stand before it. -/
def number (ks : List Constructor) (index : Nat) (nullary : Bool) : Nat :=
  ((ks.take index).filter fun k => k.payload.isNone == nullary).length

/-- Sides that carry constructors by number have numbers enough. -/
def Options.Counts (o : Options) (bound n : Nat) : Prop :=
  o.host.variants = .indexed ∨ o.native.variants = .indexed → n < bound

/-- A value of a composite type, with its parts. -/
inductive Splits (o : Options) : Term → Abstract → List (Spot × Abstract) → Prop
  | scalar {σ : Scalar} {v : Value} : σ.Fits v → Splits o (.scalar σ) (.plain v) []
  | var {i : Nat} {v : Value} : Splits o (.var i) (.plain v) []
  | opaqueTy {name : String} {v : Value} : Splits o (.opaqueTy name) (.plain v) []
  | record {fs : List Field} {as : List Abstract} : as.length = fs.length →
      Splits o (.record fs) (.record (fs.map Field.name) as) ((fs.map Field.spot).zip as)
  | object {fs : List Field} {as : List Abstract} : as.length = fs.length →
      Splits o (.object fs) (.object (fs.map Field.name) as) ((fs.map Field.spot).zip as)
  | tuple {tys : List TyId} {as : List Abstract} : as.length = tys.length →
      Splits o (.tuple tys) (.row as) ((tys.map fun ty => ⟨ty, false⟩).zip as)
  | array {e : TyId} {as : List Abstract} :
      Splits o (.array e) (.row as) (as.map fun a => (⟨e, false⟩, a))
  | constant {ks : List Constructor} {i : Nat} {name : String} : ks[i]? = some ⟨name, none⟩ →
      o.Counts (2 ^ 63) (number ks i true) →
      Splits o (.variant ks) (.constant i name (number ks i true)) []
  | block {ks : List Constructor} {i : Nat} {name : String} {ty : TyId} {a : Abstract} :
      ks[i]? = some ⟨name, some ty⟩ → o.Counts (2 ^ 32) (number ks i false) →
      Splits o (.variant ks) (.block i name (number ks i false) a) [(⟨ty, false⟩, a)]
  | none {x : TyId} : Splits o (.option x) .none []
  | some {x : TyId} {a : Abstract} : Splits o (.option x) (.some a) [(⟨x, false⟩, a)]
  | null {x : TyId} : Splits o (.nullable x) .null []
  | value {x : TyId} {a : Abstract} : Splits o (.nullable x) (.value a) [(⟨x, false⟩, a)]
  | cell {x : TyId} {a : Abstract} : Splits o (.ref x) (.cell a) [(⟨x, false⟩, a)]

theorem Splits.unique {o : Options} {t : Term} {a : Abstract} {subs subs' : List (Spot × Abstract)}
    (h : Splits o t a subs) (h' : Splits o t a subs') : subs = subs' := by
  cases h with
  | block hk =>
      cases h' with
      | block hk' =>
          cases hk.symm.trans hk'
          rfl
  | _ => cases h'; rfl

/-- The abstract values of a type, or of a place where it may be left out. Of each
layer `D` may ask for more. -/
inductive Holds (w : World) (D : Term → Abstract → Prop) : Spot → Abstract → Prop
  | left {ty : TyId} : Holds w D ⟨ty, true⟩ .none
  | given {ty : TyId} {a : Abstract} : Holds w D ⟨ty, false⟩ a → Holds w D ⟨ty, true⟩ (.some a)
  | term {ty : TyId} {t : Term} {a : Abstract} {subs : List (Spot × Abstract)} :
      w.arena.term? ty = some t → Splits w.options t a subs → D t a →
      (∀ x ∈ subs, Holds w D x.1 x.2) → Holds w D ⟨ty, false⟩ a
  | node {ty : TyId} {r : Referent} {a : Abstract} : w.Resolves ty (.ok r) →
      Holds w D ⟨r.node, false⟩ a → Holds w D ⟨ty, false⟩ a

namespace Holds

variable {w : World} {D D' : Term → Abstract → Prop} {sp : Spot} {ty : TyId} {t : Term}
  {a : Abstract} {subs : List (Spot × Abstract)}

theorem term_inv (h : Holds w D ⟨ty, false⟩ a) (ht : w.arena.term? ty = some t)
    (hs : Splits w.options t a subs) : D t a ∧ ∀ x ∈ subs, Holds w D x.1 x.2 := by
  cases h with
  | term ht' hs' hD h =>
      cases ht.symm.trans ht'
      cases hs.unique hs'
      exact ⟨hD, h⟩
  | node hr =>
      have := hr.isReference ht
      cases hs <;> cases this

theorem node_inv {r : Referent} (h : Holds w D ⟨ty, false⟩ a) (hr : w.Resolves ty (.ok r)) :
    Holds w D ⟨r.node, false⟩ a := by
  cases h with
  | term ht hs =>
      have := hr.isReference ht
      cases hs <;> cases this
  | node hr' h =>
      cases hr.unique hr'
      exact h

/-- Absence and null have no records below them. -/
theorem of_blank (h : Holds w D sp a) (ha : a.isBlank = true ∨ a.isNull = true)
    (hD : ∀ t a, a.isBlank = true ∨ a.isNull = true → D' t a) : Holds w D' sp a := by
  induction h with
  | left => exact .left
  | given _ ih => exact .given (ih ha)
  | term ht hs _ _ ih =>
      refine .term ht hs (hD _ _ ha) fun x hx => ih x hx ?_
      cases hs with
      | some | value => cases List.mem_singleton.mp hx; exact ha
      | scalar | var | opaqueTy | none | null => cases hx
      | _ => rcases ha with ha | ha <;> cases ha
  | node hr _ ih => exact .node hr (ih ha)

/-- The parts of a list are carried one after another. -/
theorem encodes_all {side : Profile} : ∀ {as : List Abstract},
    (∀ a ∈ as, ∀ s : Store, ∃ s' v, s.Within s' ∧ Encodes side s' a v) → ∀ s : Store,
      ∃ s' vs, s.Within s' ∧ vs.length = as.length ∧ ∀ x ∈ as.zip vs, Encodes side s' x.1 x.2
  | [], _, s => ⟨s, [], .refl s, rfl, by simp⟩
  | a :: as, h, s => by
      obtain ⟨s₁, v, hs₁, hv⟩ := h a (List.mem_cons_self ..) s
      obtain ⟨s₂, vs, hs₂, hlen, hvs⟩ := encodes_all
        (fun b hb => h b (List.mem_cons_of_mem _ hb)) s₁
      refine ⟨s₂, v :: vs, hs₁.trans hs₂, by simp [hlen], fun x hx => ?_⟩
      rcases List.mem_cons.mp hx with rfl | hx
      · exact hv.later hs₂
      · exact hvs x hx

/-- Every value of a type has an encoding on both sides. -/
theorem encodes (h : Holds w D sp a) {side : Profile}
    (hside : side = w.options.host ∨ side = w.options.native) (s : Store) :
    ∃ s' v, s.Within s' ∧ Encodes side s' a v := by
  have indexed (hc : side.variants = .indexed) :
      w.options.host.variants = .indexed ∨ w.options.native.variants = .indexed := by
    rcases hside with rfl | rfl
    · exact .inl hc
    · exact .inr hc
  induction h generalizing s with
  | left => exact ⟨s, .absent, .refl s, .none⟩
  | given _ ih =>
      obtain ⟨s', v, hs, hv⟩ := ih s
      exact ⟨s', v, hs, .some hv⟩
  | node _ _ ih => exact ih s
  | @term ty t a subs ht hsplits _ _ ih =>
      have all {spots : List Spot} {as : List Abstract} (hlen : as.length = spots.length)
          (hsubs : subs = spots.zip as) (s : Store) : ∃ s' vs, s.Within s' ∧ vs.length = as.length ∧
            ∀ x ∈ as.zip vs, Encodes side s' x.1 x.2 := by
        refine encodes_all (fun b hb => ?_) s
        obtain ⟨sp, hsp⟩ := Assembly.exists_zip hlen hb
        exact ih (sp, b) (hsubs ▸ hsp)
      cases hsplits with
      | scalar | var | opaqueTy => exact ⟨s, _, .refl s, .plain⟩
      | @record fs as hlen =>
          obtain ⟨s', vs, hs, hvlen, hvs⟩ := all (by simpa using hlen) rfl s
          cases hc : side.records with
          | keyed => exact ⟨s', _, hs, .keyed hc hvlen hvs (.refl _)⟩
          | positional => exact ⟨s', _, hs, .positional hc hvlen hvs⟩
      | @object fs as hlen =>
          obtain ⟨s', vs, hs, hvlen, hvs⟩ := all (by simpa using hlen) rfl s
          exact ⟨s', _, hs, .object hvlen hvs (.refl _)⟩
      | @tuple tys as hlen =>
          obtain ⟨s', vs, hs, hvlen, hvs⟩ := all (by simpa using hlen) rfl s
          exact ⟨s', _, hs, .row hvlen hvs⟩
      | @array e as =>
          obtain ⟨s', vs, hs, hvlen, hvs⟩ := encodes_all
            (fun b hb => ih (⟨e, false⟩, b) (List.mem_map_of_mem hb)) s
          exact ⟨s', _, hs, .row hvlen hvs⟩
      | @constant ks i name hk hcount =>
          cases hc : side.variants with
          | tagged => exact ⟨s, _, .refl s, .name hc⟩
          | indexed =>
              refine ⟨s, .int (Int64.ofNat (number ks i true)), .refl s, .number hc ?_⟩
              exact Int64.toInt_ofNat_of_lt (hcount (indexed hc))
      | @block ks i name p a hk hcount =>
          obtain ⟨s', v, hs, hv⟩ := ih _ (List.mem_singleton_self _) s
          cases hc : side.variants with
          | tagged => exact ⟨s', _, hs, .tagged hc hv (.refl _)⟩
          | indexed =>
              refine ⟨s', .block (UInt32.ofNat (number ks i false)) [v], hs, .numbered hc hv ?_⟩
              exact UInt32.toNat_ofNat_of_lt' (hcount (indexed hc))
      | none => exact ⟨s, _, .refl s, .none⟩
      | null => exact ⟨s, _, .refl s, .null⟩
      | some =>
          obtain ⟨s', v, hs, hv⟩ := ih _ (List.mem_singleton_self _) s
          exact ⟨s', v, hs, .some hv⟩
      | value =>
          obtain ⟨s', v, hs, hv⟩ := ih _ (List.mem_singleton_self _) s
          exact ⟨s', v, hs, .value hv⟩
      | cell =>
          obtain ⟨s', v, hs, hv⟩ := ih _ (List.mem_singleton_self _) s
          obtain ⟨within, hlt, hread⟩ := s'.newBox_spec v
          refine ⟨_, .box (s'.newBox v).1, hs.trans within, .cell hlt ?_⟩
          rw [hread]
          exact hv.later within

end Holds

end Marshal
