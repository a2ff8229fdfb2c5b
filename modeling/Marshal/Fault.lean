/-!
# Faults

Everything that can go wrong, by cause. Planning faults are found before any
value is converted; a shape mismatch or a wrong number of arguments is found
when a plan is run.

`Halt` adds the one outcome that is not a fault of the input: a computation
whose depth was bounded and which reached the bound.
-/

namespace Marshal

inductive Fault where
  /-- A named type that no module declares. -/
  | unresolved (module name : String)
  /-- A cycle that cannot be cut by a fixpoint. -/
  | cyclic (name reason : String)
  /-- A shape without a known carrier. -/
  | unsupported (ty reason : String)
  /-- A call with the wrong number of arguments. -/
  | arity (expected found : Nat)
  /-- A default that would be filled in twice, or where none is allowed. -/
  | ambiguousDefault (label reason : String)
  /-- A type declared twice. -/
  | duplicate (module name : String)
  /-- A value that is not of the planned shape. -/
  | shape (expected found : String)
  deriving DecidableEq, Repr

namespace Fault

def message : Fault → String
  | .unresolved m n => "Unresolved type '" ++ m ++ "." ++ n ++ "'"
  | .cyclic n r => "Cyclic type '" ++ n ++ "': " ++ r
  | .unsupported t r => "Unsupported type '" ++ t ++ "': " ++ r
  | .arity e f =>
    "Arity mismatch: expected " ++ toString e ++ " argument(s), found " ++ toString f
  | .ambiguousDefault l r => "Ambiguous default for parameter '" ++ l ++ "': " ++ r
  | .duplicate m n => "Duplicate declaration of type '" ++ m ++ "." ++ n ++ "'"
  | .shape e f =>
    "Value does not match the planned shape: expected " ++ e ++ ", found " ++ f

/-- A stable number for each cause. -/
def code : Fault → String
  | .unresolved _ _ => "E001"
  | .cyclic _ _ => "E002"
  | .unsupported _ _ => "E003"
  | .arity _ _ => "E004"
  | .ambiguousDefault _ _ => "E005"
  | .duplicate _ _ => "E006"
  | .shape _ _ => "E007"

/-- What to do about it, where there is general advice. -/
def help : Fault → Option String
  | .unresolved _ _ => some "Make sure the type is declared by a module of this batch"
  | .cyclic _ _ =>
    some ("Recursive types must recur through an array, option, nullable, ref, variant " ++
      "payload, optional field or function")
  | .arity _ _ =>
    some ("Calls across the boundary must be fully applied; partial application is not " ++
      "supported")
  | .ambiguousDefault _ _ => some "Declare the default on exactly one side of the boundary"
  | .unsupported _ _ | .duplicate _ _ | .shape _ _ => none

end Fault

/-- Why a computation gave no result. -/
inductive Halt where
  | fault (f : Fault)
  /-- The computation went deeper than it was allowed to. -/
  | outOfFuel
  deriving DecidableEq, Repr

end Marshal
