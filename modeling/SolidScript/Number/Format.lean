/-!
# Number — binary formats

A binary floating point format has significands of a fixed number of binary digits, a least
positive value `2 ^ -least`, and a first magnitude that is too large and counts as infinite.  Its
non-negative values in increasing order are named by their codes `0, 1, 2, …`: the codes below
`2 ^ (precision - 1)` are the subnormal values and every further block of that many codes is one
binade.  The code of infinity follows the code of the greatest finite value.

* `Format.units`: the value of a code, counted in units of `2 ^ -least`.
* `Format.nearest`: the code whose value is nearest to a fraction, of two the one with the even
  code; what rounds beyond the greatest finite value is infinite.
-/

namespace SolidScript.Number

/-- The quotient rounded to the nearest integer, of two the even one. -/
def roundQuotient (num den : Nat) : Nat :=
  let q := num / den
  let r := num % den
  if 2 * r < den then q
  else if den < 2 * r then q + 1
  else q + q % 2

/-- A binary floating point format. -/
structure Format where
  /-- The number of binary digits of a significand. -/
  precision : Nat
  /-- The least positive value is `2 ^ -least`. -/
  least : Nat
  /-- The code of infinity. -/
  infinity : Nat

namespace Format

/-- Single precision. -/
def binary32 : Format := ⟨24, 149, 0x7f800000⟩

/-- Double precision. -/
def binary64 : Format := ⟨53, 1074, 0x7ff0000000000000⟩

/-- The number of codes in a binade. -/
def binade (f : Format) : Nat := Nat.pow 2 (f.precision - 1)

/-- The value of a code in units of `2 ^ -least`. -/
def units (f : Format) (code : Nat) : Nat :=
  if code < f.binade then code
  else (f.binade + code % f.binade) * Nat.pow 2 (code / f.binade - 1)

/-- How many low binary digits a value of `whole` units has beyond a significand. -/
def excess (f : Format) (whole : Nat) : Nat := whole.log2 + 1 - f.precision

/-- The code whose value is nearest to `num / den`. -/
def nearest (f : Format) (num den : Nat) : Nat :=
  let scaled := num * Nat.pow 2 f.least
  let low := f.excess (scaled / den)
  min f.infinity (low * f.binade + roundQuotient scaled (den * Nat.pow 2 low))

theorem nearest_le_infinity (f : Format) (num den : Nat) : f.nearest num den ≤ f.infinity :=
  Nat.min_le_left _ _

theorem units_of_lt_binade {f : Format} {code : Nat} (h : code < f.binade) :
    f.units code = code := if_pos h

end Format

/-- A rounded quotient is the quotient below or the one above. -/
theorem roundQuotient_bounds (num den : Nat) :
    num / den ≤ roundQuotient num den ∧ roundQuotient num den ≤ num / den + 1 := by
  have := Nat.mod_lt (num / den) (show 0 < 2 by decide)
  simp only [roundQuotient]
  split
  · omega
  · split <;> omega

/-- A whole quotient is its own rounding. -/
theorem roundQuotient_mul {den : Nat} (n : Nat) (h : 0 < den) :
    roundQuotient (n * den) den = n := by
  simp [roundQuotient, Nat.mul_mod_left, Nat.mul_div_cancel _ h, h]

end SolidScript.Number
