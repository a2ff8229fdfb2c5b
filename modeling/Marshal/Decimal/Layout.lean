import Marshal.Decimal.Shortest

/-!
# Writing numbers

How the digits of a number become text. Literals and values are written by
different rules: a literal changes to an exponent when the number is large or
small, a value never does and gives a whole number in full.
-/

namespace Marshal

namespace Decimal

/-- The digits of the significand. -/
def digitChars (d : Decimal) : List Char := Nat.toDigits 10 d.digits

/-- How many digits stand before the point; not positive for a number below
one tenth. -/
def pointAt (d : Decimal) : Int := d.digitChars.length + d.exponent

/-- The place of the leading digit. -/
def magnitude (d : Decimal) : Int := d.pointAt - 1

/-- Positional notation, with no point in a whole number. -/
def positional (d : Decimal) : List Char :=
  let ds := d.digitChars
  if d.pointAt ≤ 0 then
    '0' :: '.' :: (List.replicate (-d.pointAt).toNat '0' ++ ds)
  else if 0 ≤ d.exponent then
    ds ++ List.replicate d.exponent.toNat '0'
  else
    ds.take d.pointAt.toNat ++ '.' :: ds.drop d.pointAt.toNat

/-- An exponent, with a sign only when it is negative. -/
def exponentChars (e : Int) : List Char :=
  if e < 0 then '-' :: Nat.toDigits 10 e.natAbs else Nat.toDigits 10 e.natAbs

/-- One digit, a point if more follow, and the exponent. -/
def scientific (d : Decimal) : List Char :=
  match d.digitChars with
  | [] => []
  | [c] => c :: 'e' :: exponentChars d.magnitude
  | c :: cs => c :: '.' :: (cs ++ 'e' :: exponentChars d.magnitude)

end Decimal

namespace Binary64

/-- The sign, followed by a text of the magnitude. -/
def signed (x : Binary64) (magnitude : List Char) : String :=
  String.ofList (if x.isNegative then '-' :: magnitude else magnitude)

/-- Text shared by both rules for the words that are not numbers. -/
def specialText (x : Binary64) : String :=
  if x.isNaN then "NaN" else x.signed "inf".toList

/-- A literal: positional while the leading digit stands between the fourth
place after the point and the sixteenth before it, always with a digit after
the point; otherwise with an exponent. -/
def literalText (x : Binary64) : String :=
  if !x.isFinite then x.specialText
  else if x.isZero then x.signed "0.0".toList
  else
    let d := x.shortest
    if -4 ≤ d.magnitude ∧ d.magnitude < 16 then
      x.signed (if 0 ≤ d.exponent then d.positional ++ ['.', '0'] else d.positional)
    else
      x.signed d.scientific

/-- A value: a whole number in full with one zero after the point, any other
by its shortest digits, never with an exponent. -/
def valueText (x : Binary64) : String :=
  if !x.isFinite then x.specialText
  else if x.isWhole then x.signed (Nat.toDigits 10 x.wholePart ++ ['.', '0'])
  else x.signed x.shortest.positional

end Binary64

end Marshal
