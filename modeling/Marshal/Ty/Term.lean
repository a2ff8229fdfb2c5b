import Marshal.Literal

/-!
# Type terms

One layer of a type. The parts of a term are not terms but ids, handles to
terms of the same arena (`Marshal.Arena`), so a term is a small plain value and
terms compare by structure.

Every traversal of types is built from two functions: `Term.children` lists the
ids of a term from left to right, and `Term.rebuild` puts other ids into their
places. `rebuild_children` says that putting a term's own children back changes
nothing, `children_rebuild` that what was put in is found there again, and
`rebuild_rebuild` that nothing is left of what was put in before.
-/

namespace Marshal

/-- A handle to a term of an arena. -/
structure TyId where
  index : Nat
  deriving DecidableEq, Repr, Inhabited

inductive Scalar where
  | unit
  | bool
  | int
  | float
  | string
  deriving DecidableEq, Repr

namespace Scalar

def all : List Scalar := [.unit, .bool, .int, .float, .string]

def name : Scalar → String
  | .unit => "unit"
  | .bool => "bool"
  | .int => "int"
  | .float => "float"
  | .string => "string"

def isNumeric : Scalar → Bool
  | .int | .float => true
  | .unit | .bool | .string => false

/-- Scalars come first in every arena, in this order. -/
def id : Scalar → TyId
  | .unit => ⟨0⟩
  | .bool => ⟨1⟩
  | .int => ⟨2⟩
  | .float => ⟨3⟩
  | .string => ⟨4⟩

end Scalar

/-- The id is one of the five scalars'. -/
def TyId.isScalar (ty : TyId) : Bool := ty.index < 5

/-- How an id is written in messages. -/
def TyId.text (ty : TyId) : String := "#" ++ toString ty.index

/-- A field of a record or object. An optional one may be left out. -/
structure Field where
  name : String
  ty : TyId
  optional : Bool
  mutable : Bool
  deriving DecidableEq, Repr

/-- A constructor of a variant, nullary without a payload. -/
structure Constructor where
  name : String
  payload : Option TyId
  deriving DecidableEq, Repr

/-- How a parameter is passed. Labels document; every parameter is addressed by
its position. The default of an optional parameter is filled in on the caller's
side. -/
inductive Role where
  | positional
  | named (label : String)
  | optional (label : String) (default : Option Literal)
  deriving DecidableEq, Repr

namespace Role

def label : Role → Option String
  | .positional => none
  | .named l | .optional l _ => some l

def isOptional : Role → Bool
  | .optional _ _ => true
  | .positional | .named _ => false

end Role

/-- A parameter; `nativeDefault` is one that the callee fills in itself. -/
structure Parameter where
  role : Role
  ty : TyId
  nativeDefault : Option Literal
  deriving DecidableEq, Repr

structure Signature where
  params : List Parameter
  ret : TyId
  deriving DecidableEq, Repr

def Signature.arity (s : Signature) : Nat := s.params.length

/-- A declaration's name: the module it stands in and its name there. -/
structure Key where
  module : String
  name : String
  deriving DecidableEq, Repr

def Key.text (k : Key) : String := k.module ++ "." ++ k.name

/-- One layer of a type. -/
inductive Term where
  | scalar (s : Scalar)
  /-- A parameter of a generic declaration, by position. -/
  | var (index : Nat)
  /-- A record whose carrier is each runtime's own. -/
  | record (fields : List Field)
  /-- A record that is keyed in both runtimes. -/
  | object (fields : List Field)
  | variant (constructors : List Constructor)
  | tuple (elements : List TyId)
  | array (element : TyId)
  /-- A value or its absence. -/
  | option (inner : TyId)
  /-- A value or the null sentinel. -/
  | nullable (inner : TyId)
  /-- A mutable cell. -/
  | ref (contents : TyId)
  /-- Handed over unexamined. -/
  | opaqueTy (name : String)
  | function (signature : Signature)
  /-- A declared type applied to arguments. -/
  | named (key : Key) (args : List TyId)
  deriving DecidableEq, Repr

namespace Term

/-- What a term is called in messages. -/
def shape : Term → String
  | .scalar s => s.name
  | .var _ => "type parameter"
  | .record _ => "record"
  | .object _ => "object"
  | .variant _ => "variant"
  | .tuple _ => "tuple"
  | .array _ => "array"
  | .option _ => "option"
  | .nullable _ => "nullable"
  | .ref _ => "ref"
  | .opaqueTy _ => "opaque"
  | .function _ => "function"
  | .named _ _ => "named type"

/-- Scalars, parameters and opaque types have no parts, whatever they are. -/
def isLeaf : Term → Bool
  | .scalar _ | .var _ | .opaqueTy _ => true
  | _ => false

def isVar : Term → Bool
  | .var _ => true
  | _ => false

def isReference : Term → Bool
  | .named _ _ => true
  | _ => false

/-- The ids of a term, from left to right. -/
def children : Term → List TyId
  | .scalar _ | .var _ | .opaqueTy _ => []
  | .record fields | .object fields => fields.map Field.ty
  | .variant constructors => constructors.filterMap Constructor.payload
  | .tuple elements => elements
  | .array t | .option t | .nullable t | .ref t => [t]
  | .function s => s.params.map Parameter.ty ++ [s.ret]
  | .named _ args => args

/-! ## Other ids in the same places -/

def fillFields : List Field → List TyId → List Field
  | f :: fs, t :: ts => { f with ty := t } :: fillFields fs ts
  | fs, _ => fs

def fillConstructors : List Constructor → List TyId → List Constructor
  | ⟨name, some _⟩ :: cs, t :: ts => ⟨name, some t⟩ :: fillConstructors cs ts
  | ⟨name, none⟩ :: cs, ts => ⟨name, none⟩ :: fillConstructors cs ts
  | cs, _ => cs

/-- Fills the parameters and hands back what is left for the return type. -/
def fillParams : List Parameter → List TyId → List Parameter × List TyId
  | p :: ps, t :: ts =>
    let (ps, rest) := fillParams ps ts
    ({ p with ty := t } :: ps, rest)
  | ps, ts => (ps, ts)

/-- The term with `ids` for its children, which have to be as many. -/
def rebuild : Term → List TyId → Term
  | .record fields, ids => .record (fillFields fields ids)
  | .object fields, ids => .object (fillFields fields ids)
  | .variant constructors, ids => .variant (fillConstructors constructors ids)
  | .tuple _, ids => .tuple ids
  | .array t, ids => .array (ids.headD t)
  | .option t, ids => .option (ids.headD t)
  | .nullable t, ids => .nullable (ids.headD t)
  | .ref t, ids => .ref (ids.headD t)
  | .function s, ids =>
    let (params, rest) := fillParams s.params ids
    .function ⟨params, rest.headD s.ret⟩
  | .named key _, ids => .named key ids
  | t, _ => t

theorem fillFields_self (fs : List Field) : fillFields fs (fs.map Field.ty) = fs := by
  induction fs with
  | nil => rfl
  | cons f fs ih => simp [fillFields, ih]

theorem fillConstructors_self (cs : List Constructor) :
    fillConstructors cs (cs.filterMap Constructor.payload) = cs := by
  induction cs with
  | nil => rfl
  | cons c cs ih =>
    obtain ⟨name, _ | payload⟩ := c <;> simp [fillConstructors, ih]

theorem fillParams_self (ps : List Parameter) (rest : List TyId) :
    fillParams ps (ps.map Parameter.ty ++ rest) = (ps, rest) := by
  induction ps with
  | nil => cases rest <;> rfl
  | cons p ps ih => simp [fillParams, ih]

/-- A term's own children in their places give the term. -/
theorem rebuild_children (t : Term) : t.rebuild t.children = t := by
  cases t <;> simp [rebuild, children, fillFields_self, fillConstructors_self, fillParams_self]

theorem fields_fill (fs : List Field) (ids : List TyId) (h : ids.length = fs.length) :
    (fillFields fs ids).map Field.ty = ids := by
  induction fs generalizing ids with
  | nil => simpa [fillFields] using h
  | cons f fs ih =>
    cases ids with
    | nil => simp at h
    | cons t ts => simp [fillFields, ih ts (by simpa using h)]

theorem constructors_fill (cs : List Constructor) (ids : List TyId)
    (h : ids.length = (cs.filterMap Constructor.payload).length) :
    (fillConstructors cs ids).filterMap Constructor.payload = ids := by
  induction cs generalizing ids with
  | nil => simpa [fillConstructors] using h
  | cons c cs ih =>
    obtain ⟨name, _ | payload⟩ := c
    · simpa [fillConstructors] using ih ids (by simpa using h)
    · cases ids with
      | nil => simp at h
      | cons t ts => simp [fillConstructors, ih ts (by simpa using h)]

theorem params_fill (ps : List Parameter) (ids : List TyId) (h : ps.length ≤ ids.length) :
    (fillParams ps ids).1.map Parameter.ty ++ (fillParams ps ids).2 = ids ∧
      (fillParams ps ids).2.length = ids.length - ps.length := by
  induction ps generalizing ids with
  | nil => simp [fillParams]
  | cons p ps ih =>
    cases ids with
    | nil => simp at h
    | cons t ts => simpa [fillParams] using ih ts (by simpa using h)

theorem headD_singleton {ids : List TyId} (h : ids.length = 1) (t : TyId) :
    [ids.headD t] = ids := by
  obtain ⟨u, rfl⟩ := List.length_eq_one_iff.1 h
  rfl

/-- The children of a rebuilt term are the ids put in, if there are as many. -/
theorem children_rebuild (t : Term) (ids : List TyId) (h : ids.length = t.children.length) :
    (t.rebuild ids).children = ids := by
  cases t with
  | scalar | var | opaqueTy => exact (List.length_eq_zero_iff.1 h).symm
  | record | object => exact fields_fill _ _ (by simpa [children] using h)
  | variant => exact constructors_fill _ _ h
  | tuple | named => rfl
  | array | option | nullable | ref => exact headD_singleton h _
  | function s =>
    have length_eq : ids.length = s.params.length + 1 := by simpa [children] using h
    obtain ⟨filled, left⟩ := params_fill s.params ids (by omega)
    have rest : [(fillParams s.params ids).2.headD s.ret] = (fillParams s.params ids).2 :=
      headD_singleton (by omega) _
    rw [rebuild, children, rest]
    exact filled

theorem fillFields_fill (fs : List Field) (ids ids' : List TyId) (h : fs.length ≤ ids'.length) :
    fillFields (fillFields fs ids) ids' = fillFields fs ids' := by
  induction fs generalizing ids ids' with
  | nil => cases ids <;> rfl
  | cons f fs ih =>
    cases ids' with
    | nil => simp at h
    | cons t' ts' =>
      have rest := fun ts => ih ts ts' (by simpa using h)
      cases ids with
      | nil => rfl
      | cons t ts => simp [fillFields, rest]

theorem fillConstructors_fill (cs : List Constructor) (ids ids' : List TyId)
    (h : (cs.filterMap Constructor.payload).length ≤ ids'.length) :
    fillConstructors (fillConstructors cs ids) ids' = fillConstructors cs ids' := by
  induction cs generalizing ids ids' with
  | nil => cases ids <;> rfl
  | cons c cs ih =>
    obtain ⟨name, _ | payload⟩ := c
    · simp [fillConstructors, ih ids ids' (by simpa using h)]
    · cases ids' with
      | nil => simp at h
      | cons t' ts' =>
        have rest := fun ts => ih ts ts' (by simpa using h)
        cases ids with
        | nil => rfl
        | cons t ts => simp [fillConstructors, rest]

theorem fillParams_fill (ps : List Parameter) (ids ids' : List TyId)
    (h : ps.length ≤ ids'.length) :
    fillParams (fillParams ps ids).1 ids' = fillParams ps ids' := by
  induction ps generalizing ids ids' with
  | nil => cases ids <;> rfl
  | cons p ps ih =>
    cases ids' with
    | nil => simp at h
    | cons t' ts' =>
      have rest := fun ts => ih ts ts' (by simpa using h)
      cases ids with
      | nil => rfl
      | cons t ts => simp [fillParams, rest]

theorem headD_headD {ids ids' : List TyId} (h : ids'.length = 1) (t : TyId) :
    ids'.headD (ids.headD t) = ids'.headD t := by
  obtain ⟨u, rfl⟩ := List.length_eq_one_iff.1 h
  rfl

/-- Of ids put in twice the first ones leave no trace. -/
theorem rebuild_rebuild (t : Term) (ids ids' : List TyId) (h : ids'.length = t.children.length) :
    (t.rebuild ids).rebuild ids' = t.rebuild ids' := by
  cases t with
  | scalar | var | opaqueTy | tuple | named => rfl
  | record fs | object fs =>
    have all : fs.length ≤ ids'.length := by simp [h, children]
    simp only [rebuild, fillFields_fill fs ids ids' all]
  | variant cs => simp only [rebuild, fillConstructors_fill cs ids ids' (Nat.le_of_eq h.symm)]
  | array | option | nullable | ref => simp only [rebuild, headD_headD h]
  | function s =>
    have length_eq : ids'.length = s.params.length + 1 := by simpa [children] using h
    have left := (params_fill s.params ids' (by omega)).2
    simp only [rebuild, fillParams_fill s.params ids ids' (by omega)]
    rw [headD_headD (by omega)]

end Term

end Marshal
