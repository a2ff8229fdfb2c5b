import Marshal.Value.Basic

/-!
# Equality of values

Two values are equal when they are built alike from equal parts, with these
exceptions: objects are compared as finite maps from keys to present values,
numbers numerically, cells by identity or else by contents, and functions by
identity.

Cells may be nested to any depth, and a cell can contain itself, so equality is
defined by comparing up to some depth and asking whether any depth is enough.
Deeper comparison never revokes an equality.
-/

namespace Marshal.Value

/-- The entries that count. -/
def present (entries : List (String × Value)) : List (String × Value) :=
  entries.filter fun e => !e.2.isAbsent

/-- Elements are equal one by one. -/
def all₂ (eq : Value → Value → Bool) : List Value → List Value → Bool
  | [], [] => true
  | v :: vs, w :: ws => eq v w && all₂ eq vs ws
  | _, _ => false

/-- As many entries, and each entry of the first is in the second. -/
def sameEntries (eq : Value → Value → Bool) (a b : List (String × Value)) : Bool :=
  (present a).length == (present b).length &&
    (present a).all fun (k, v) =>
      match findKey k b with
      | some w => eq w v
      | none => false

/-- Values are found equal within a number of layers. -/
def equalWithin (s : Store) : Nat → Value → Value → Bool
  | 0, _, _ => false
  | depth + 1, v, w =>
    match v, w with
    | .absent, .absent => true
    | .null, .null => true
    | .unit, .unit => true
    | .bool a, .bool b => a == b
    | .int a, .int b => a == b
    | .float a, .float b => a.numEq b
    | .str a, .str b => a == b
    | .array a, .array b => all₂ (equalWithin s depth) a b
    | .object a, .object b => sameEntries (equalWithin s depth) a b
    | .block t a, .block u b => t == u && all₂ (equalWithin s depth) a b
    | .box a, .box b => a == b || equalWithin s depth (s.read a) (s.read b)
    | .fn f, .fn g => f.token == g.token
    | _, _ => false

/-- Equality of values in a store. -/
def Equal (s : Store) (v w : Value) : Prop := ∃ depth, equalWithin s depth v w = true

end Marshal.Value
