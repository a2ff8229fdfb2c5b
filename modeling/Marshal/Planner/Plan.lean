import Marshal.Planner.Assembly
import Marshal.Planner.State

/-!
# Planning

The converter of a type, by its shape. Results are remembered by id, so each
type is planned once.

A recursive type is planned by guessing. The first guess is that its occurrences
inside its own body need nothing. If the body then needs nothing either, the
guess is right. Otherwise the body is planned again with the occurrences
deferring to the type's fixpoint body, which is what this second turn gives.
A result that used a guess that is still open may be wrong, so it is not
remembered; the log of uses tells which results did.

A recursive type that is met again at the depth of lazily converted positions
at which it was entered contains itself directly and is refused.

The rules are written over `rec`, which plans a part; `planWithin` ties the
knot, and bounds how deep planning may go.
-/

namespace Marshal.Planner

open PlanM

/-! ## Reasons -/

def optionOfOption : String := "an option of an option cannot be represented by omission"

def nestedAbsence : String := "an omittable value of option type nests two levels of absence"

def noConstructors : String := "a variant needs at least one constructor"

def constructorTwice (name : String) : String :=
  "constructor '" ++ name ++ "' is declared twice"

def fieldTwice (name : String) : String := "field '" ++ name ++ "' is declared twice"

def refRefused : String :=
  "converting the contents of a ref builds a new box, so writes through one side would not " ++
    "be seen by the other; declare the contents opaque to keep one box"

def containsItself : String :=
  "the type contains itself directly, so converting it would never terminate"

def growingArguments : String :=
  "it recurses with different type arguments, so there is no finite fixpoint"

def notHostValue (lit : Literal) : String :=
  "the default " ++ lit.text ++ " is not a host value of this type"

def bodyMissing : String := "fixpoint converter was not published"

/-- The first of the names that was there before. -/
def firstRepeated : List String → Option String
  | names => go [] names
where
  go (seen : List String) : List String → Option String
    | [] => none
    | n :: ns => if seen.contains n then some n else go (n :: seen) ns

/-! ## Looking through references -/

variable (catalog : Catalog) (options : Options)

def resolve (ty : TyId) : PlanM Referent := onArena (catalog.resolve ty)

/-- The term behind a type, references resolved. -/
def resolvedTerm (ty : TyId) : PlanM (Option Term) := do
  match (← arena).term? ty with
  | some (.named _ _) =>
    let r ← resolve catalog ty
    pure ((← arena).term? r.node)
  | t => pure t

/-- The type is an option, or a reference that stands for one. -/
def standsForOption (ty : TyId) : PlanM Bool := do
  match ← resolvedTerm catalog ty with
  | some (.option _) => pure true
  | _ => pure false

/-! ## Defaults -/

/-- A literal is a host value of a scalar type. -/
def fitsScalar : Scalar → Literal → Bool
  | .unit, .unit => true
  | .bool, .bool _ => true
  | .int, .int _ => true
  | .float, .float _ => true
  | .string, .string _ => true
  | _, _ => false

/-- A literal is a host value of a variant: one of its nullary constructors. -/
def fitsVariant (carrier : VariantCarrier) (constructors : List Constructor)
    (lit : Literal) : Bool :=
  let nullary := constructors.filter fun c => c.payload.isNone
  match carrier, lit with
  | .tagged, .string tag => nullary.any fun c => c.name = tag
  | .indexed, .int index => 0 ≤ index.toInt && index.toInt < nullary.length
  | _, _ => false

/-- A literal is a host value of a type other than a reference or nullable. -/
def fits (t : Term) (lit : Literal) : Bool :=
  match t with
  | .var _ | .opaqueTy _ => true
  | .scalar s => fitsScalar s lit
  | .variant constructors => fitsVariant options.host.variants constructors lit
  | _ => false

/-- Refuses a shim default that is not a host value of its parameter's type. -/
def acceptDefault : Nat → TyId → Literal → PlanM Unit
  | 0, _, _ => throw .outOfFuel
  | depth + 1, ty, lit => do
    match ← resolvedTerm catalog ty with
    | some (.nullable inner) => acceptDefault depth inner lit
    | some t =>
      if fits options t lit then pure ()
      else fail (.unsupported (← shown ty) (notHostValue lit))
    | none => fail (.unsupported (← shown ty) (notHostValue lit))

/-! ## Shapes -/

section Shapes

variable (depth : Nat) (rec : TyId → PlanM Converter)

/-- A converter with `wrap` around both halves of another. -/
def wrapping (wrap : Step → Step) (c : Converter) : PlanM Converter := make (c.wrapped wrap)

/-- A value that may be left out: an optional field or parameter. -/
def forOmittable (ty : TyId) : PlanM Converter := do
  if ← standsForOption catalog ty then
    fail (.unsupported (← shown ty) nestedAbsence)
  wrapping .mapOption (← rec ty)

/-- Refuses two fields of one name. -/
def uniqueFields (ty : TyId) (fields : List Field) : PlanM Unit := do
  match firstRepeated (fields.map Field.name) with
  | some name => fail (.unsupported (← shown ty) (fieldTwice name))
  | none => pure ()

def forField (f : Field) : PlanM Converter :=
  atPlace (.field f.name)
    (if f.optional then onDemand (forOmittable catalog rec f.ty) else rec f.ty)

def recordSlot (f : Field) : PlanM RecordSlot := do
  if f.optional then pure ⟨f.name, true⟩
  else pure ⟨f.name, ← standsForOption catalog f.ty⟩

def forRecord (ty : TyId) (fields : List Field) : PlanM Converter := do
  uniqueFields ty fields
  let cs ← fields.mapM (forField catalog rec)
  let slots ← fields.mapM (recordSlot catalog)
  make (Assembly.record options.host.records options.native.records fields slots cs)

def forObject (ty : TyId) (fields : List Field) : PlanM Converter := do
  uniqueFields ty fields
  let cs ← fields.mapM (forField catalog rec)
  make (Assembly.keyed fields cs)

def forPayload (c : Constructor) : PlanM (Option Converter) :=
  match c.payload with
  | none => pure none
  | some ty => do
    let converter ← atPlace (.constructor c.name) (onDemand (rec ty))
    pure (some converter)

def forVariant (ty : TyId) (constructors : List Constructor) : PlanM Converter := do
  if constructors.isEmpty then
    fail (.unsupported (← shown ty) noConstructors)
  match firstRepeated (constructors.map Constructor.name) with
  | some name => fail (.unsupported (← shown ty) (constructorTwice name))
  | none =>
    let payloads ← constructors.mapM (forPayload rec)
    make (Assembly.variant options.host.variants options.native.variants constructors payloads)

def forElements : Nat → List TyId → PlanM (List Converter)
  | _, [] => pure []
  | index, ty :: tys => do
    let c ← atPlace (.element index) (rec ty)
    let cs ← forElements (index + 1) tys
    pure (c :: cs)

def forTuple (elements : List TyId) : PlanM Converter := do
  let cs ← forElements rec 0 elements
  make (Assembly.positional cs)

def forArray (element : TyId) : PlanM Converter := do
  wrapping .mapArray (← onDemand (rec element))

def forOption (ty inner : TyId) : PlanM Converter := do
  if ← standsForOption catalog inner then
    fail (.unsupported (← shown ty) optionOfOption)
  wrapping .mapOption (← onDemand (rec inner))

def forNullable (inner : TyId) : PlanM Converter := do
  make (Assembly.nullable (← onDemand (rec inner)))

def forCell (ty contents : TyId) : PlanM Converter := do
  let c ← onDemand (rec contents)
  if c.isIdentity then
    make Assembly.sameBox
  else
    match options.refs with
    | .preserve => fail (.unsupported (← shown ty) refRefused)
    | .allowRebuild => wrapping .rebuildBox c

end Shapes

/-! ## Signatures -/

/-- The converters of a signature's parts, and of the function as a value. -/
structure SignaturePlan where
  convention : Convention
  /-- One for each parameter; an optional one may be absent. -/
  args : List Converter
  ret : Converter
  shim : Converter
  deriving DecidableEq

section Signatures

variable (depth : Nat) (rec : TyId → PlanM Converter)

/-- A parameter, after a check of the default that its shim fills in. -/
def forParam (convention : Convention) (index : Nat) (p : Parameter) : PlanM Converter :=
  atPlace (.argument index p.role.label) do
    match convention.shimDefault index with
    | some lit => acceptDefault catalog options depth p.ty lit
    | none => pure ()
    onDemand (if p.role.isOptional then forOmittable catalog rec p.ty else rec p.ty)

def forParams (convention : Convention) : Nat → List Parameter → PlanM (List Converter)
  | _, [] => pure []
  | index, p :: ps => do
    let c ← forParam catalog options depth rec convention index p
    let cs ← forParams convention (index + 1) ps
    pure (c :: cs)

def forSignature (s : Signature) : PlanM SignaturePlan := do
  let convention ← ofExcept (Convention.ofSignature s)
  let args ← forParams catalog options depth rec convention 0 s.params
  let ret ← atPlace .result (onDemand (rec s.ret))
  let shim ← make (Assembly.shim s convention args ret)
  pure ⟨convention, args, ret, shim⟩

end Signatures

/-! ## References -/

section References

variable (rec : TyId → PlanM Converter)

/-- What stands for a recursive type inside its own body once it is known to be
converted. -/
def deferring (ty : TyId) : Option (Step × Step) :=
  some (.recurse ty .forward, .recurse ty .backward)

/-- The two turns of a recursive type that is open. -/
def twoTurns (ty node : TyId) (place : Segment) : PlanM Converter := do
  let first ← atPlace place (rec node)
  if first.isIdentity then
    pure .identity
  else
    let c ← make (deferring ty)
    modifyPlanner fun p => p.setGuess ty c
    let body ← atPlace place (rec node)
    modifyPlanner fun p => p.setBody ty body
    pure c

/-- A reference to a type that is open. -/
def forOpen (ty : TyId) (guess : Converter) : PlanM Converter := do
  let p ← planner
  if p.enteredAt ty = some p.lazyDepth then
    fail (.cyclic (← shown ty) containsItself)
  modifyPlanner fun p => p.logUse ty
  pure guess

def forReference (ty : TyId) : PlanM Converter := do
  match (← planner).guess? ty with
  | some guess => forOpen ty guess
  | none =>
    let r ← resolve catalog ty
    let shown ← shown ty
    if !r.recursive then
      atPlace (.expansion shown) (rec r.node)
    else if !r.regular then
      fail (.cyclic shown growingArguments)
    else
      bracket (fun p => p.enter ty) (fun p => p.leave ty)
        (twoTurns rec ty r.node (.expansion shown))

end References

/-! ## One layer -/

/-- The converter of a type from those of its parts. -/
def forTerm (depth : Nat) (rec : TyId → PlanM Converter) (ty : TyId) : PlanM Converter := do
  match (← arena).term? ty with
  | none => pure .identity
  | some t =>
    match t with
    | .scalar _ | .var _ | .opaqueTy _ => pure .identity
    | .record fields => forRecord catalog options rec ty fields
    | .object fields => forObject catalog rec ty fields
    | .variant constructors => forVariant options rec ty constructors
    | .tuple elements => forTuple rec elements
    | .array element => forArray rec element
    | .option inner => forOption catalog rec ty inner
    | .nullable inner => forNullable rec inner
    | .ref contents => forCell options rec ty contents
    | .function s => do pure (← forSignature catalog options depth rec s).shim
    | .named _ _ => forReference catalog rec ty

/-! ## Remembering -/

/-- Offers the bodies that are needed from a converter on. -/
def shareBodies : List TyId → PlanM Unit
  | [] => pure ()
  | ty :: tys => do
    match (← planner).fixpoints.find? ty with
    | some body =>
      let _ ← onCache (Cache.offerBody ty body)
      shareBodies tys
    | none => shareBodies tys

/-- Remembers a settled converter. Its bodies are offered before it, so whoever
finds the converter in the cache also finds them. -/
def settle (ty : TyId) (c : Converter) : PlanM Converter := do
  let p ← planner
  if p.caching then
    shareBodies (p.fixpoints.needed c.targets)
    let kept ← onCache (Cache.offer ty c)
    modifyPlanner fun p => p.remember ty kept
    pure kept
  else
    modifyPlanner fun p => p.remember ty c
    pure c

/-- Takes over from the cache the bodies that are needed from the targets on
the stack; the targets of a body that the planner has are not followed. -/
def takeBodies : Nat → List TyId → PlanM Unit
  | _, [] => pure ()
  | 0, _ :: _ => throw .outOfFuel
  | turns + 1, ty :: stack => do
    if (← planner).fixpoints.contains ty then
      takeBodies turns stack
    else
      match ← onCache (Cache.getBody ty) with
      | none => fail (.unsupported (← shown ty) bodyMissing)
      | some body =>
        modifyPlanner fun p => p.setBody ty body
        takeBodies turns (body.targets.reverse ++ stack)

/-- A converter that another planner has settled. -/
def fromCache (ty : TyId) : PlanM (Option Converter) := do
  if (← planner).caching then onCache (Cache.get ty) else pure none

/-- A type that is not remembered: its layer is planned, and the result is
remembered unless it hangs on an open guess. -/
def planAnew (depth : Nat) (rec : TyId → PlanM Converter) (ty : TyId) : PlanM Converter := do
  let mark := (← planner).uses.length
  let c ← dropUsesOnHalt (forTerm catalog options depth rec ty)
  if ((← planner).liveUses mark).isEmpty then
    modifyPlanner fun p => p.truncateUses mark
    settle ty c
  else
    modifyPlanner fun p => p.keepLiveUses mark
    pure c

/-- The converter of a type: remembered, from the cache, or planned anew. -/
def planLayer (depth : Nat) (rec : TyId → PlanM Converter) (ty : TyId) : PlanM Converter := do
  match (← planner).settled.lookup ty with
  | some c => pure c
  | none =>
    match ← fromCache ty with
    | some c =>
      takeBodies depth c.targets.reverse
      modifyPlanner fun p => p.remember ty c
      pure c
    | none => planAnew catalog options depth rec ty

/-- Plans a type, to a bounded depth. -/
def planWithin : Nat → TyId → PlanM Converter
  | 0, _ => throw .outOfFuel
  | depth + 1, ty => planLayer catalog options depth (planWithin depth) ty

/-- Plans the parts of a signature, to a bounded depth. -/
def planSignatureWithin (depth : Nat) (s : Signature) : PlanM SignaturePlan :=
  forSignature catalog options depth (planWithin catalog options depth) s

/-! ## At any depth -/

/-- How deep types may nest in practice. -/
def depthLimit : Nat := 100000

def plan (ty : TyId) : PlanM Converter := planWithin catalog options depthLimit ty

def planSignature (s : Signature) : PlanM SignaturePlan :=
  planSignatureWithin catalog options depthLimit s

end Marshal.Planner
