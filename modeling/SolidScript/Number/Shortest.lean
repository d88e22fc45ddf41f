import SolidScript.Number.Double

/-!
# Number — the shortest decimal of a double

The decimal that stands for a double has the fewest digits with which it reads back as that double,
and of the decimals with that many digits it is the nearest.  For each number of digits the two
neighbours of the value on the decimal grid of that many digits decide: if any point of the grid
reads back, one of the two does.

* `Shortest.decimal`: the digits and the power of ten of the last of them.
-/

namespace SolidScript.Number

/-- The decimal `digits * 10 ^ scale`. -/
structure Decimal where
  digits : Nat
  scale : Int
deriving DecidableEq

namespace Shortest
open Format

/-- The value of a code, as a fraction with denominator `2 ^ least`, in units of `10 ^ scale`: a
numerator and a denominator. -/
def onGrid (code : Nat) (scale : Int) : Nat × Nat :=
  if 0 ≤ scale then (binary64.units code, Nat.pow 2 binary64.least * Nat.pow 10 scale.toNat)
  else (binary64.units code * Nat.pow 10 (-scale).toNat, Nat.pow 2 binary64.least)

/-- The decimal reads back as the double of this code. -/
def readsBack (code : Nat) (d : Decimal) : Bool :=
  if 0 ≤ d.scale then binary64.nearest (d.digits * Nat.pow 10 d.scale.toNat) 1 == code
  else binary64.nearest d.digits (Nat.pow 10 (-d.scale).toNat) == code

/-- The number of decimal places that lie between the point and the first digit of the least
double, and more. -/
def reach : Nat := 400

/-- How many decimal digits stand before the point, negative when zeros follow the point. -/
def magnitude (code : Nat) : Int :=
  (Nat.toDigits 10 (binary64.units code * Nat.pow 10 reach / Nat.pow 2 binary64.least)).length - reach

/-- The neighbour of the value on the grid of `10 ^ scale` that reads back, of two the nearer one,
and of two as near the even one. -/
def onGrid? (code : Nat) (scale : Int) : Option Decimal :=
  let (num, den) := onGrid code scale
  let below : Decimal := ⟨num / den, scale⟩
  let above : Decimal := ⟨num / den + 1, scale⟩
  match readsBack code below, readsBack code above with
  | true,  true  => some ⟨roundQuotient num den, scale⟩
  | true,  false => some below
  | false, true  => some above
  | false, false => none

/-- The first hit among grids of `digits`, `digits + 1`, … digits, `tries` of them. -/
def search (code : Nat) (magnitude : Int) : Nat → Nat → Option Decimal
  | 0,         _      => none
  | tries + 1, digits =>
    match onGrid? code (magnitude - digits) with
    | some d => some d
    | none   => search code magnitude tries (digits + 1)

/-- The shortest decimal of the positive finite double with this code.  Seventeen digits are always
enough; the value itself stands behind them. -/
def decimal (code : Nat) : Decimal :=
  match search code (magnitude code) 17 1 with
  | some d => d
  | none   => ⟨binary64.units code * Nat.pow 5 binary64.least, -binary64.least⟩

end Shortest

end SolidScript.Number
