import Marshal.Planner.Plan
import Marshal.Proofs.Halting

/-!
# Layers

All composite types are planned alike: something is checked, the parts are planned
from left to right, and a converter is made of what they gave. A `Layer` is that
pattern, a `Part` is one place at which planning goes on below. `forTerm_composite`
says that planning a composite type is running its layer, so what is shown of
layers holds of records, variants, functions and all others at once.
-/

namespace Marshal

/-! ## Running the planner's monad -/

namespace PlanM

variable {α β : Type}

theorem bind_run (x : PlanM α) (f : α → PlanM β) (s : PlanState) :
    (x >>= f) s = match x s with
      | (.ok v, s') => f v s'
      | (.error h, s') => (.error h, s') := by
  rw [run_bind]
  rcases x s with ⟨_ | v, s'⟩ <;> rfl

theorem bind_ok {x : PlanM α} {f : α → PlanM β} {s s' : PlanState} {v : α}
    (h : x s = (.ok v, s')) : (x >>= f) s = f v s' := by rw [bind_run, h]

theorem bind_error {x : PlanM α} {f : α → PlanM β} {s s' : PlanState} {e : Halt}
    (h : x s = (.error e, s')) : (x >>= f) s = (.error e, s') := by rw [bind_run, h]

theorem fail_bind (e : Fault) (f : α → PlanM β) : (fail e >>= f) = fail e := rfl

theorem arena_run (s : PlanState) : arena s = (.ok s.shared.arena, s) := rfl

/-- What a sequence did, its first part did. -/
theorem bind_cases {x : PlanM α} {f : α → PlanM β} {s s' : PlanState} {r : Except Halt β}
    (h : (x >>= f) s = (r, s')) :
    (∃ e, x s = (.error e, s') ∧ r = .error e) ∨ ∃ v s₁, x s = (.ok v, s₁) ∧ f v s₁ = (r, s') := by
  rw [bind_run] at h
  split at h
  · next v s₁ hx => exact .inr ⟨v, s₁, hx, h⟩
  · next e s₁ hx => cases h; exact .inl ⟨e, hx, rfl⟩

end PlanM

namespace Planner

open PlanM

variable (catalog : Catalog) (options : Options)

/-! ## Parts -/

/-- A place below a type where planning goes on. -/
structure Part where
  place : Option Segment
  /-- The shim's default for the value at this place. -/
  default : Option Literal
  /-- The value is converted when it is met. -/
  lazy : Bool
  /-- The value may be left out. -/
  omittable : Bool
  ty : TyId
  deriving DecidableEq

namespace Part

def ofField (f : Field) : Part := ⟨some (.field f.name), none, f.optional, f.optional, f.ty⟩

def ofConstructor (c : Constructor) : Option Part :=
  c.payload.map fun ty => ⟨some (.constructor c.name), none, true, false, ty⟩

def ofElements : Nat → List TyId → List Part
  | _, [] => []
  | index, ty :: tys =>
      ⟨some (.element index), none, false, false, ty⟩ :: ofElements (index + 1) tys

/-- A part that has no place of its own. -/
def inner (ty : TyId) : Part := ⟨none, none, true, false, ty⟩

def ofParam (convention : Convention) (index : Nat) (p : Parameter) : Part :=
  ⟨some (.argument index p.role.label), convention.shimDefault index, true, p.role.isOptional, p.ty⟩

def ofParams (convention : Convention) : Nat → List Parameter → List Part
  | _, [] => []
  | index, p :: ps => ofParam convention index p :: ofParams convention (index + 1) ps

/-- The parts of a function: its parameters, then its result. -/
def ofSignature (convention : Convention) (s : Signature) : List Part :=
  ofParams convention 0 s.params ++ [⟨some .result, none, true, false, s.ret⟩]

/-- What a part is planned as below its place. -/
def body (depth : Nat) (rec : TyId → PlanM Converter) (p : Part) : PlanM Converter := do
  match p.default with
  | some lit => acceptDefault catalog options depth p.ty lit
  | none => pure ()
  let planned := if p.omittable then forOmittable catalog rec p.ty else rec p.ty
  if p.lazy then onDemand planned else planned

def run (depth : Nat) (rec : TyId → PlanM Converter) (p : Part) : PlanM Converter :=
  match p.place with
  | some place => atPlace place (p.body catalog options depth rec)
  | none => p.body catalog options depth rec

end Part

/-! ## Layers -/

/-- How a composite type is planned: a check, its parts, and the content that is
put together from them. -/
structure Layer where
  before : PlanM Unit
  parts : List Part
  assemble : List Converter → PlanM Assembly.Content

def Layer.run (depth : Nat) (rec : TyId → PlanM Converter) (l : Layer) : PlanM Converter := do
  l.before
  let cs ← l.parts.mapM (Part.run catalog options depth rec)
  make (← l.assemble cs)

/-- Converters of payloads, each at its constructor. -/
def spread : List Constructor → List Converter → List (Option Converter)
  | [], _ => []
  | ⟨_, none⟩ :: ks, cs => none :: spread ks cs
  | ⟨_, some _⟩ :: ks, c :: cs => some c :: spread ks cs
  | ⟨_, some _⟩ :: ks, [] => none :: spread ks []

/-- Refuses a variant without constructors, or with two of one name. -/
def uniqueConstructors (ty : TyId) (constructors : List Constructor) : PlanM Unit := do
  if constructors.isEmpty then
    fail (.unsupported (← shown ty) noConstructors)
  else
    match firstRepeated (constructors.map Constructor.name) with
    | some name => fail (.unsupported (← shown ty) (constructorTwice name))
    | none => pure ()

def refuseOption (ty inner : TyId) (reason : String) : PlanM Unit := do
  if ← standsForOption catalog inner then
    fail (.unsupported (← shown ty) reason)

def assembleRecord (fields : List Field) (cs : List Converter) : PlanM Assembly.Content := do
  let slots ← fields.mapM (recordSlot catalog)
  pure (Assembly.record options.host.records options.native.records fields slots cs)

def assembleCell (ty : TyId) (c : Converter) : PlanM Assembly.Content := do
  if c.isIdentity then
    pure Assembly.sameBox
  else
    match options.refs with
    | .preserve => fail (.unsupported (← shown ty) refRefused)
    | .allowRebuild => pure (c.wrapped .rebuildBox)

/-- The layer of a composite type; none for a leaf or a reference. -/
def layer (ty : TyId) : Term → Option Layer
  | .scalar _ | .var _ | .opaqueTy _ | .named _ _ => none
  | .record fields =>
    some ⟨uniqueFields ty fields, fields.map Part.ofField, assembleRecord catalog options fields⟩
  | .object fields =>
    some ⟨uniqueFields ty fields, fields.map Part.ofField,
      fun cs => pure (Assembly.keyed fields cs)⟩
  | .variant constructors =>
    some ⟨uniqueConstructors ty constructors, constructors.filterMap Part.ofConstructor, fun cs =>
      pure (Assembly.variant options.host.variants options.native.variants constructors
        (spread constructors cs))⟩
  | .tuple elements =>
    some ⟨pure (), Part.ofElements 0 elements, fun cs => pure (Assembly.positional cs)⟩
  | .array element =>
    some ⟨pure (), [.inner element], fun cs => pure ((cs.headD .identity).wrapped .mapArray)⟩
  | .option inner =>
    some ⟨refuseOption catalog ty inner optionOfOption, [.inner inner],
      fun cs => pure ((cs.headD .identity).wrapped .mapOption)⟩
  | .nullable inner =>
    some ⟨pure (), [.inner inner], fun cs => pure (Assembly.nullable (cs.headD .identity))⟩
  | .ref contents =>
    some ⟨pure (), [.inner contents], fun cs => assembleCell options ty (cs.headD .identity)⟩
  | .function s =>
    match Convention.ofSignature s with
    | .error f => some ⟨fail f, [], fun _ => fail f⟩
    | .ok convention =>
      some ⟨pure (), Part.ofSignature convention s, fun cs =>
        pure (Assembly.shim s convention cs.dropLast (cs.getLastD .identity))⟩

variable {catalog options} in
/-- The layer of a function refuses it, or has parts by its convention. -/
theorem layer_function {ty : TyId} {s : Signature} {l : Layer}
    (h : layer catalog options ty (.function s) = some l) :
    (∃ f, Convention.ofSignature s = .error f ∧ l = ⟨fail f, [], fun _ => fail f⟩) ∨
      ∃ convention, Convention.ofSignature s = .ok convention ∧
        l = ⟨pure (), Part.ofSignature convention s, fun cs =>
          pure (Assembly.shim s convention cs.dropLast (cs.getLastD .identity))⟩ := by
  unfold layer at h
  cases hs : Convention.ofSignature s with
  | error f =>
      simp only [hs] at h
      exact .inl ⟨f, rfl, (Option.some.inj h).symm⟩
  | ok convention =>
      simp only [hs] at h
      exact .inr ⟨convention, rfl, (Option.some.inj h).symm⟩

/-! ## Shapes are layers -/

section Shapes

variable {catalog options} {depth : Nat} {rec : TyId → PlanM Converter}

theorem forField_eq (f : Field) :
    forField catalog rec f = (Part.ofField f).run catalog options depth rec := by
  cases f with
  | mk name ty optional mutable =>
      cases optional <;> simp [forField, Part.ofField, Part.run, Part.body]

theorem forFields_eq (fields : List Field) :
    fields.mapM (forField catalog rec) =
      (fields.map Part.ofField).mapM (Part.run catalog options depth rec) := by
  induction fields with
  | nil => rfl
  | cons f fs ih => rw [List.map_cons, List.mapM_cons, List.mapM_cons, ih, forField_eq]

theorem forPayloads_eq (ks : List Constructor) :
    ks.mapM (forPayload rec) = (do
      let cs ← (ks.filterMap Part.ofConstructor).mapM (Part.run catalog options depth rec)
      pure (spread ks cs)) := by
  induction ks with
  | nil => rfl
  | cons k ks ih =>
      obtain ⟨name, _ | ty⟩ := k
      · rw [List.mapM_cons, ih]
        simp [forPayload, Part.ofConstructor, List.filterMap_cons, spread]
      · rw [List.mapM_cons, ih]
        simp [forPayload, Part.ofConstructor, Part.run, Part.body, spread]

theorem forElements_eq (index : Nat) (tys : List TyId) :
    forElements rec index tys =
      (Part.ofElements index tys).mapM (Part.run catalog options depth rec) := by
  induction tys generalizing index with
  | nil => rfl
  | cons ty tys ih =>
      rw [forElements, Part.ofElements, List.mapM_cons, ih]
      simp [Part.run, Part.body]

theorem forParams_eq (convention : Convention) (index : Nat) (ps : List Parameter) :
    forParams catalog options depth rec convention index ps =
      (Part.ofParams convention index ps).mapM (Part.run catalog options depth rec) := by
  induction ps generalizing index with
  | nil => rfl
  | cons p ps ih =>
      rw [forParams, Part.ofParams, List.mapM_cons, ih]
      rfl

theorem inner_run (ty : TyId) :
    (Part.inner ty).run catalog options depth rec = onDemand (rec ty) := by
  simp [Part.inner, Part.run, Part.body]

theorem forSignature_eq (s : Signature) :
    forSignature catalog options depth rec s = (do
      let convention ← ofExcept (Convention.ofSignature s)
      let cs ← (Part.ofSignature convention s).mapM (Part.run catalog options depth rec)
      let shim ← make (Assembly.shim s convention cs.dropLast (cs.getLastD .identity))
      pure ⟨convention, cs.dropLast, cs.getLastD .identity, shim⟩) := by
  unfold forSignature
  congr 1
  funext convention
  rw [forParams_eq, Part.ofSignature, List.mapM_append]
  simp [Part.run, Part.body]

/-- Planning a composite type is running its layer. -/
theorem forTerm_composite {ty : TyId} {t : Term} {l : Layer}
    (h : layer catalog options ty t = some l)
    {s : PlanState} (ht : s.shared.arena.term? ty = some t) :
    forTerm catalog options depth rec ty s = l.run catalog options depth rec s := by
  rw [forTerm, bind_ok (arena_run s), ht]
  cases t with
  | scalar | var | opaqueTy | named => cases h
  | record fields =>
      cases h
      simp [forRecord, Layer.run, assembleRecord, @forFields_eq catalog options depth rec]
  | object fields =>
      cases h
      simp [forObject, Layer.run, @forFields_eq catalog options depth rec]
  | variant constructors =>
      cases h
      simp only [forVariant, Layer.run, uniqueConstructors,
        @forPayloads_eq catalog options depth rec]
      split
      · simp only [bind_assoc, fail_bind]
      · simp only [bind_assoc]
        cases firstRepeated (constructors.map Constructor.name) with
        | some name => simp only [bind_assoc, fail_bind]
        | none => simp only [pure_bind]
  | tuple elements =>
      cases h
      simp [forTuple, Layer.run,
        @forElements_eq catalog options depth rec]
  | array | nullable =>
      cases h
      simp [forArray, forNullable, Layer.run, inner_run, wrapping]
  | ref =>
      cases h
      simp only [forCell, Layer.run, assembleCell, List.mapM_cons, List.mapM_nil, inner_run,
        bind_assoc, pure_bind]
      refine congrFun (bind_congr fun c => ?_) s
      cases c with
      | identity => simp [Converter.isIdentity]
      | custom =>
          cases options.refs <;> simp [Converter.isIdentity, fail_bind, wrapping]
  | option inner =>
      cases h
      simp only [forOption, Layer.run, refuseOption, bind_assoc]
      refine congrFun (bind_congr fun stands => ?_) s
      cases stands <;> simp [fail_bind, inner_run, wrapping]
  | function sig =>
      show (do pure (← forSignature catalog options depth rec sig).shim : PlanM Converter) s = _
      rw [forSignature_eq]
      rcases layer_function h with ⟨_, hs, rfl⟩ | ⟨_, hs, rfl⟩
      · rw [hs]
        rfl
      · simp [Layer.run, PlanM.ofExcept, hs]

end Shapes

end Planner

end Marshal
