import Marshal.Fault
import Marshal.Ty.Term

/-!
# Calling conventions

A native function may have labelled and optional parameters; the host calls it
with a fixed list of arguments, one per parameter, in declared order. A convention
records, for each argument, where the default of an absent one is filled in: by the
shim that makes the call, by the native function itself, or nowhere.
-/

namespace Marshal

/-- Where the default of an optional parameter is filled in. -/
inductive Placement where
  | nowhere
  /-- By the caller's shim, before the call. -/
  | shim (lit : Literal)
  /-- By the native function; the shim passes absence on. -/
  | native (lit : Literal)
  deriving DecidableEq, Repr

/-- The literal that the shim fills in, if it does. -/
def Placement.shim? : Placement → Option Literal
  | .shim lit => some lit
  | .nowhere | .native _ => none

/-- One argument of a call. -/
structure ArgSlot where
  /-- The position of the parameter in the signature. -/
  param : Nat
  label : Option String
  optional : Bool
  default : Placement
  deriving DecidableEq, Repr

/-- What a wrapper checks and fills in at run time: the number of arguments,
and a literal for an absent one. -/
structure Adapter where
  arity : Nat
  defaults : List (Option Literal)
  deriving DecidableEq, Repr

/-- How a function is called. `order` gives for each declared parameter its
position in the call. -/
structure Convention where
  slots : List ArgSlot
  order : List Nat
  deriving DecidableEq, Repr

namespace Convention

def arity (c : Convention) : Nat := c.slots.length

/-- Checks the number of arguments and fills in the shim's defaults. -/
def countAndFill (c : Convention) : Adapter :=
  ⟨c.arity, c.slots.map fun s => s.default.shim?⟩

/-- Checks the number of arguments only. -/
def countOnly (c : Convention) : Adapter := ⟨c.arity, List.replicate c.arity none⟩

def fillsIn (c : Convention) : Bool := c.slots.any fun s => s.default.shim?.isSome

/-- The shim's literal for a declared parameter. -/
def shimDefault (c : Convention) (param : Nat) : Option Literal := do
  let position ← c.order[param]?
  let slot ← c.slots[position]?
  slot.default.shim?

/-! ## From a signature -/

def twoDefaults : String := "a default is declared both for the shim and on the native side"

def onlyOptional : String := "only optional parameters can have a default"

/-- Where a parameter's default goes. One on both sides, or one on a parameter
that is not optional, is ambiguous; `shown` names the parameter. -/
def place (shown : String) (p : Parameter) : Except Fault Placement :=
  match p.role, p.nativeDefault with
  | .optional _ (some _), some _ => .error (.ambiguousDefault shown twoDefaults)
  | .optional _ (some lit), none => .ok (.shim lit)
  | .optional _ none, some lit => .ok (.native lit)
  | .optional _ none, none => .ok .nowhere
  | .positional, some _ | .named _, some _ => .error (.ambiguousDefault shown onlyOptional)
  | .positional, none | .named _, none => .ok .nowhere

/-- The slot of the parameter at a position. One without a label is shown by
its number. -/
def argSlot (index : Nat) (p : Parameter) : Except Fault ArgSlot :=
  (place (p.role.label.getD ("#" ++ toString index)) p).map fun default =>
    ⟨index, p.role.label, p.role.isOptional, default⟩

def slotsFrom : Nat → List Parameter → Except Fault (List ArgSlot)
  | _, [] => .ok []
  | index, p :: ps => do
    let s ← argSlot index p
    let rest ← slotsFrom (index + 1) ps
    pure (s :: rest)

/-- The convention of a signature: every parameter keeps its position. -/
def ofSignature (s : Signature) : Except Fault Convention :=
  (slotsFrom 0 s.params).map fun slots => ⟨slots, List.range slots.length⟩

end Convention

end Marshal
