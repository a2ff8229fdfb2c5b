import Marshal.Text.Writer
import Marshal.Value.Basic

/-!
# Values as text

How values are written in messages and reports. A cell is written with its
contents, down to a number of layers.
-/

namespace Marshal.Value

open Text (Writer commas)

/-- One layer; `sub` writes the layers below. -/
def writeLayer (s : Store) (sub : Value → Writer) (v : Value) (acc : String) : String :=
  match v with
  | .absent => acc ++ "undefined"
  | .null => acc ++ "null"
  | .unit => acc ++ "()"
  | .bool b => acc ++ (if b then "true" else "false")
  | .int n => acc ++ toString n.toInt
  | .float x => acc ++ x.valueText
  | .str t => acc ++ Text.quoteValue t
  | .array items => commas (items.map sub) (acc ++ "[") ++ "]"
  | .object entries => commas (entries.map entry) (acc ++ "\x7b") ++ "\x7d"
  | .block tag fields =>
    commas (fields.map sub) (acc ++ "<" ++ toString tag.toNat ++ ">(") ++ ")"
  | .box b => sub (s.read b) (acc ++ "ref(") ++ ")"
  | .fn f => acc ++ "<function/" ++ toString f.arity ++ ">"
where
  entry (e : String × Value) : Writer := fun acc => sub e.2 (acc ++ e.1 ++ ": ")

def writeWithin (s : Store) : Nat → Value → Writer
  | 0, _, acc => acc
  | depth + 1, v, acc => writeLayer s (writeWithin s depth) v acc

/-- How deep values may nest in practice. -/
def depthLimit : Nat := 1000000

def text (s : Store) (v : Value) : String := writeWithin s depthLimit v ""

/-- How a cell or a function shows itself as a handle. -/
def handleText (s : Store) : Value → Option String
  | .box b => some ("BoxRef(" ++ text s (s.read b) ++ ")")
  | .fn f => some ("FnValue(arity = " ++ toString f.arity ++ ")")
  | _ => none

end Marshal.Value
