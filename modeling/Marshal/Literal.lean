import Marshal.Decimal.Layout
import Marshal.Text.Quoted

/-!
# Literals

The literals that a signature may give as defaults. They are part of types, so
two literals are equal when they are the same literal: numbers compare by bits.
-/

namespace Marshal

/-- A default as it is written in a signature. -/
inductive Literal where
  | unit
  | bool (b : Bool)
  | int (n : Int64)
  | float (x : Binary64)
  | string (s : String)
  deriving DecidableEq, Repr

namespace Literal

/-- A literal as it appears in messages. -/
def text : Literal → String
  | .unit => "()"
  | .bool b => if b then "true" else "false"
  | .int n => toString n.toInt
  | .float x => x.literalText
  | .string s => Text.quoteLiteral s

end Literal

end Marshal
