import Marshal.Binary64

/-!
# The shortest decimal that reads back

Every finite nonzero word is the nearest double of an interval of reals. Among
the decimals of that interval this module picks one with the fewest digits, and
of those the one nearest to the number; an exact tie goes up.

All arithmetic is on naturals. An interval is kept as three numerators over one
unit, and a decimal grid of step `10 ^ p` meets it exactly when one of the two
grid points around the number does, so trying ever finer grids and looking at
two points on each finds the fewest digits.
-/

namespace Marshal

/-- The number `digits * 10 ^ exponent`. -/
structure Decimal where
  digits : Nat
  exponent : Int
  deriving DecidableEq, Repr

/-- The reals that round to `value / unit`: those from `lower / unit` to
`upper / unit`, the ends counting when `closed`. -/
structure Rounding where
  lower : Nat
  value : Nat
  upper : Nat
  unit : Nat
  closed : Bool
  deriving Repr

namespace Rounding

/-- Whether `k * step` lies in the interval, everything scaled by `scale`. -/
def admits (r : Rounding) (scale step k : Nat) : Bool :=
  if r.closed then
    r.lower * scale ≤ k * step && k * step ≤ r.upper * scale
  else
    r.lower * scale < k * step && k * step < r.upper * scale

/-- The multiple of `10 ^ p` to write, if the grid of that step meets the
interval: the nearer of the two neighbours of the number that are inside, the
upper one on a tie. -/
def onGrid (r : Rounding) (p : Int) : Option Nat :=
  let scale := Nat.pow 10 (-p).toNat
  let step := r.unit * Nat.pow 10 p.toNat
  let below := r.value * scale / step
  match r.admits scale step below, r.admits scale step (below + 1) with
  | true, true =>
    if r.value * scale - below * step < (below + 1) * step - r.value * scale then
      some below
    else
      some (below + 1)
  | true, false => some below
  | false, true => some (below + 1)
  | false, false => none

/-- The place of the leading digit: the number is at least `10 ^ leading` and
below `10 ^ (leading + 1)`. -/
def leading (r : Rounding) : Int :=
  if r.unit ≤ r.value then
    ((Nat.toDigits 10 (r.value / r.unit)).length : Int) - 1
  else
    -((Nat.toDigits 10 ((r.unit - 1) / r.value)).length : Int)

/-- The first grid with a hit, from step `10 ^ p` down. A double needs at most
seventeen digits, so the search is over before its budget is. -/
def search (r : Rounding) : Nat → Int → Decimal
  | 0, p => ⟨r.value * Nat.pow 10 (-p).toNat / (r.unit * Nat.pow 10 p.toNat), p⟩
  | budget + 1, p =>
    match r.onGrid p with
    | some k => ⟨k, p⟩
    | none => r.search budget (p - 1)

end Rounding

namespace Binary64

/-- The interval of a finite nonzero word. Its ends are the midpoints to the two
neighbours; below a power of two the lower neighbour is half as far away. They
count when the significand is even, as rounding sends ties there. -/
def rounding (x : Binary64) : Rounding :=
  let up := 1 <<< (x.scale - 1077)
  let gap := if x.fraction = 0 ∧ 1 < x.field then 1 else 2
  { lower := (4 * x.significand - gap) * up
    value := 4 * x.significand * up
    upper := (4 * x.significand + 2) * up
    unit := 1 <<< (1077 - x.scale)
    closed := x.significand % 2 == 0 }

/-- The shortest decimal of a finite nonzero word. Ten on the coarsest grid is
one on the next, and no other hit ends in a zero. -/
def shortest (x : Binary64) : Decimal :=
  let r := x.rounding
  let d := r.search 18 r.leading
  if d.digits % 10 = 0 then ⟨d.digits / 10, d.exponent + 1⟩ else d

end Binary64

end Marshal
