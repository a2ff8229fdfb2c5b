import Marshal.Convention
import Marshal.Profile

/-!
# Conversion steps

A step describes one change of representation; steps nest like the types they
are planned from. They are pure descriptions and are run elsewhere
(`Marshal.Run`). A recursive type is converted by a `recurse` step, which
stands for the fixpoint body of that type.
-/

namespace Marshal

/-- Forward runs from the host to the native side, backward the other way. -/
inductive Direction where
  | forward
  | backward
  deriving DecidableEq, Repr

/-- A field of a positional record. An optional one may be absent: its key is
left out on the keyed side. -/
structure RecordSlot where
  name : String
  optional : Bool
  deriving DecidableEq, Repr

mutual

inductive Step where
  | identity
  /-- A keyed record to an array in declared order. -/
  | wrapRecord (slots : List RecordSlot)
  /-- An array in declared order to a keyed record; an absent element becomes a
  missing key. -/
  | unwrapRecord (slots : List RecordSlot)
  /-- Converts a present value; absence stays. -/
  | mapOption (inner : Step)
  /-- Converts a value other than null; null stays. -/
  | mapNullable (inner : Step)
  /-- Converts one field of a keyed record, if it is present. -/
  | atField (name : String) (inner : Step)
  /-- Wraps a function so that it takes an exact number of arguments. -/
  | adaptArity (adapter : Adapter)
  /-- Puts a literal for absence. -/
  | substituteDefault (lit : Literal)
  /-- Hands over the same cell. -/
  | passBox (inner : Step)
  /-- Makes a new cell with converted contents. -/
  | rebuildBox (inner : Step)
  /-- One step after another. -/
  | sequence (steps : List Step)
  /-- One step for each element of an array of that length. -/
  | mapElements (steps : List Step)
  /-- The same step for every element of an array. -/
  | mapArray (inner : Step)
  /-- Moves a variant to another carrier and converts its payload. -/
  | retag (source target : VariantCarrier) (cases : List CaseStep)
  /-- Wraps a function: converts its arguments and its result. -/
  | wrapFunction (args : List Step) (ret : Step)
  /-- Half of the fixpoint body of a recursive type. -/
  | recurse (target : TyId) (direction : Direction)

/-- A constructor with the step for its payload; none if it is nullary. -/
structure CaseStep where
  name : String
  payload : Option Step

end

instance : Inhabited Step := ⟨.identity⟩

def CaseStep.isNullary (c : CaseStep) : Bool := c.payload.isNone

namespace Step

def isIdentity : Step → Bool
  | .identity => true
  | _ => false

/-! ## Sequences -/

/-- What a step contributes to a sequence: nothing, its parts, or itself. -/
def parts : Step → List Step
  | .identity => []
  | .sequence steps => steps
  | s => [s]

/-- A sequence without needless layers. -/
def seq (steps : List Step) : Step :=
  match steps.flatMap parts with
  | [] => .identity
  | [s] => s
  | flat => .sequence flat

/-! ## The steps inside a step -/

mutual

/-- Puts a step and all steps inside it, outer ones first, before others. -/
def subStepsOnto : Step → List Step → List Step
  | .identity, rest => .identity :: rest
  | .wrapRecord slots, rest => .wrapRecord slots :: rest
  | .unwrapRecord slots, rest => .unwrapRecord slots :: rest
  | .adaptArity adapter, rest => .adaptArity adapter :: rest
  | .substituteDefault lit, rest => .substituteDefault lit :: rest
  | .recurse target direction, rest => .recurse target direction :: rest
  | .mapOption inner, rest => .mapOption inner :: inner.subStepsOnto rest
  | .mapNullable inner, rest => .mapNullable inner :: inner.subStepsOnto rest
  | .atField name inner, rest => .atField name inner :: inner.subStepsOnto rest
  | .passBox inner, rest => .passBox inner :: inner.subStepsOnto rest
  | .rebuildBox inner, rest => .rebuildBox inner :: inner.subStepsOnto rest
  | .mapArray inner, rest => .mapArray inner :: inner.subStepsOnto rest
  | .sequence steps, rest => .sequence steps :: subStepsOfAll steps rest
  | .mapElements steps, rest => .mapElements steps :: subStepsOfAll steps rest
  | .retag source target cases, rest =>
    .retag source target cases :: subStepsOfCases cases rest
  | .wrapFunction args ret, rest =>
    .wrapFunction args ret :: subStepsOfAll args (ret.subStepsOnto rest)

def subStepsOfAll : List Step → List Step → List Step
  | [], rest => rest
  | s :: ss, rest => s.subStepsOnto (subStepsOfAll ss rest)

def subStepsOfCases : List CaseStep → List Step → List Step
  | [], rest => rest
  | ⟨_, none⟩ :: cs, rest => subStepsOfCases cs rest
  | ⟨_, some s⟩ :: cs, rest => s.subStepsOnto (subStepsOfCases cs rest)

end

/-- A step and all steps inside it, outer ones first. -/
def subSteps (s : Step) : List Step := s.subStepsOnto []

mutual

theorem subStepsOnto_append : ∀ (s : Step) (xs ys : List Step),
    s.subStepsOnto (xs ++ ys) = s.subStepsOnto xs ++ ys
  | .identity, _, _ | .wrapRecord _, _, _ | .unwrapRecord _, _, _ | .adaptArity _, _, _
  | .substituteDefault _, _, _ | .recurse _ _, _, _ => by simp [subStepsOnto]
  | .mapOption inner, xs, ys | .mapNullable inner, xs, ys | .atField _ inner, xs, ys
  | .passBox inner, xs, ys | .rebuildBox inner, xs, ys | .mapArray inner, xs, ys => by
    simp [subStepsOnto, subStepsOnto_append inner]
  | .sequence steps, xs, ys | .mapElements steps, xs, ys => by
    simp [subStepsOnto, subStepsOfAll_append steps]
  | .retag _ _ cases, xs, ys => by simp [subStepsOnto, subStepsOfCases_append cases]
  | .wrapFunction args ret, xs, ys => by
    simp [subStepsOnto, subStepsOnto_append ret, subStepsOfAll_append args]

theorem subStepsOfAll_append : ∀ (ss xs ys : List Step),
    subStepsOfAll ss (xs ++ ys) = subStepsOfAll ss xs ++ ys
  | [], _, _ => rfl
  | s :: ss, xs, ys => by
    simp [subStepsOfAll, subStepsOfAll_append ss, subStepsOnto_append s]

theorem subStepsOfCases_append : ∀ (cs : List CaseStep) (xs ys : List Step),
    subStepsOfCases cs (xs ++ ys) = subStepsOfCases cs xs ++ ys
  | [], _, _ => rfl
  | ⟨_, none⟩ :: cs, xs, ys => by simp [subStepsOfCases, subStepsOfCases_append cs]
  | ⟨_, some s⟩ :: cs, xs, ys => by
    simp [subStepsOfCases, subStepsOfCases_append cs, subStepsOnto_append s]

end

/-- The steps of one part stand together. -/
theorem subStepsOnto_eq (s : Step) (rest : List Step) :
    s.subStepsOnto rest = s.subSteps ++ rest :=
  subStepsOnto_append s [] rest

/-- The recursive type that a step defers to. -/
def target? : Step → Option TyId
  | .recurse target _ => some target
  | _ => none

/-- The step makes a new cell. -/
def isRebuild : Step → Bool
  | .rebuildBox _ => true
  | _ => false

/-! ## Equality -/

mutual

/-- Whether two steps are the same description. -/
def same : Step → Step → Bool
  | .identity, .identity => true
  | .wrapRecord a, .wrapRecord b => decide (a = b)
  | .unwrapRecord a, .unwrapRecord b => decide (a = b)
  | .mapOption a, .mapOption b => a.same b
  | .mapNullable a, .mapNullable b => a.same b
  | .atField m a, .atField n b => decide (m = n) && a.same b
  | .adaptArity a, .adaptArity b => decide (a = b)
  | .substituteDefault a, .substituteDefault b => decide (a = b)
  | .passBox a, .passBox b => a.same b
  | .rebuildBox a, .rebuildBox b => a.same b
  | .sequence as, .sequence bs => sameAll as bs
  | .mapElements as, .mapElements bs => sameAll as bs
  | .mapArray a, .mapArray b => a.same b
  | .retag s t as, .retag s' t' bs => decide (s = s') && decide (t = t') && sameCases as bs
  | .wrapFunction as r, .wrapFunction bs r' => sameAll as bs && r.same r'
  | .recurse t d, .recurse t' d' => decide (t = t') && decide (d = d')
  | _, _ => false

def sameAll : List Step → List Step → Bool
  | [], [] => true
  | a :: as, b :: bs => a.same b && sameAll as bs
  | _, _ => false

def sameCases : List CaseStep → List CaseStep → Bool
  | [], [] => true
  | ⟨m, none⟩ :: as, ⟨n, none⟩ :: bs => decide (m = n) && sameCases as bs
  | ⟨m, some a⟩ :: as, ⟨n, some b⟩ :: bs => decide (m = n) && a.same b && sameCases as bs
  | _, _ => false

end

mutual

theorem same_iff : ∀ a b : Step, a.same b = true ↔ a = b
  | .identity, b => by cases b <;> simp [same]
  | .wrapRecord _, b => by cases b <;> simp [same]
  | .unwrapRecord _, b => by cases b <;> simp [same]
  | .adaptArity _, b => by cases b <;> simp [same]
  | .substituteDefault _, b => by cases b <;> simp [same]
  | .recurse _ _, b => by cases b <;> simp [same]
  | .mapOption a, b => by cases b <;> simp [same, same_iff a]
  | .mapNullable a, b => by cases b <;> simp [same, same_iff a]
  | .atField _ a, b => by cases b <;> simp [same, same_iff a]
  | .passBox a, b => by cases b <;> simp [same, same_iff a]
  | .rebuildBox a, b => by cases b <;> simp [same, same_iff a]
  | .mapArray a, b => by cases b <;> simp [same, same_iff a]
  | .sequence as, b => by cases b <;> simp [same, sameAll_iff as]
  | .mapElements as, b => by cases b <;> simp [same, sameAll_iff as]
  | .retag _ _ as, b => by cases b <;> simp [same, sameCases_iff as, and_assoc]
  | .wrapFunction as r, b => by cases b <;> simp [same, sameAll_iff as, same_iff r]

theorem sameAll_iff : ∀ as bs : List Step, sameAll as bs = true ↔ as = bs
  | [], bs => by cases bs <;> simp [sameAll]
  | a :: as, bs => by cases bs <;> simp [sameAll, same_iff a, sameAll_iff as]

theorem sameCases_iff : ∀ as bs : List CaseStep, sameCases as bs = true ↔ as = bs
  | [], bs => by cases bs <;> simp [sameCases]
  | ⟨_, none⟩ :: as, bs => by
    rcases bs with _ | ⟨⟨_, _ | _⟩, bs⟩ <;> simp [sameCases, sameCases_iff as]
  | ⟨_, some a⟩ :: as, bs => by
    rcases bs with _ | ⟨⟨_, _ | _⟩, bs⟩ <;>
      simp [sameCases, same_iff a, sameCases_iff as]

end

instance : DecidableEq Step := fun a b => decidable_of_iff _ (same_iff a b)

end Step

end Marshal
