/-!
# Double-precision numbers as words

A number is kept as its 64 bits: one sign bit, an 11-bit exponent field and a
52-bit fraction. Nothing here computes with numbers. The library only hands
them over, tells them apart and writes them out, and for that the word is all
that is needed.

Two notions of sameness live on a word. Structural equality compares bits, so
the two zeros differ and a NaN equals itself; this is what identifies a literal
inside a type. `Binary64.numEq` is numeric equality, which identifies the
zeros and makes a NaN differ from everything; this is what compares values.
-/

namespace Marshal

/-- A double-precision number, by its bits. -/
structure Binary64 where
  bits : UInt64
  deriving DecidableEq, Repr, Inhabited

namespace Binary64

/-! ## The three parts of a word -/

def isNegative (x : Binary64) : Bool := (x.bits.toNat >>> 63) % 2 == 1

/-- The biased exponent. -/
def field (x : Binary64) : Nat := (x.bits.toNat >>> 52) % 0x800

def fraction (x : Binary64) : Nat := x.bits.toNat % 0x10000000000000

/-! ## Classes of words -/

def isFinite (x : Binary64) : Bool := x.field != 2047

def isNaN (x : Binary64) : Bool := x.field == 2047 && x.fraction != 0

def isZero (x : Binary64) : Bool := x.field == 0 && x.fraction == 0

/-- Numeric equality: the zeros are equal, a NaN equals nothing. -/
def numEq (x y : Binary64) : Bool :=
  !x.isNaN && !y.isNaN && (x == y || (x.isZero && y.isZero))

theorem numEq_self {x : Binary64} (h : x.isNaN = false) : x.numEq x = true := by
  simp [numEq, h]

theorem numEq_comm (x y : Binary64) : x.numEq y = y.numEq x := by
  simp only [numEq, Bool.beq_comm (a := x), Bool.and_comm (x := x.isZero),
    Bool.and_comm (x := !x.isNaN)]

/-! ## Magnitude

The magnitude of a finite word is `significand * 2 ^ (scale - 1075)`. Below the
least normal number the hidden bit is missing and the scale stops falling. -/

def significand (x : Binary64) : Nat :=
  if x.field = 0 then x.fraction else 0x10000000000000 + x.fraction

def scale (x : Binary64) : Nat := max x.field 1

/-- The integer part of the magnitude. -/
def wholePart (x : Binary64) : Nat :=
  x.significand <<< (x.scale - 1075) >>> (1075 - x.scale)

/-- The word is a finite number without a fractional part. -/
def isWhole (x : Binary64) : Bool :=
  x.isFinite && (x.significand <<< (x.scale - 1075)) % (1 <<< (1075 - x.scale)) == 0

end Binary64

end Marshal
