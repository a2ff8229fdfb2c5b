/-!
# Paths into a type

Where inside a declaration's type a fault was met: one segment for each place
that was entered on the way, outermost first.
-/

namespace Marshal

inductive Segment where
  /-- A field of a record or object. -/
  | field (name : String)
  | element (index : Nat)
  /-- The payload of a constructor. -/
  | constructor (name : String)
  | argument (index : Nat) (label : Option String)
  | result
  /-- From a reference to what it stands for. -/
  | expansion (name : String)
  deriving DecidableEq, Repr

namespace Segment

/-- A segment as it is reported. Arguments count from one. -/
def text : Segment → String
  | .field name => "in field '" ++ name ++ "'"
  | .element index => "in element " ++ toString index
  | .constructor name => "in payload of constructor '" ++ name ++ "'"
  | .argument index (some label) =>
    "in argument " ++ toString (index + 1) ++ " ('" ++ label ++ "')"
  | .argument index none => "in argument " ++ toString (index + 1)
  | .result => "in return type"
  | .expansion name => "while expanding type '" ++ name ++ "'"

end Segment

end Marshal
