import SolidScript.Number.Double
import SolidScript.Text.Reader
import SolidScript.Text.Word

/-!
# Number — numerals

A numeral is digits with a point before, between or after them, and an exponent of ten that may
follow.  Its value is an exact decimal fraction.  A script keeps numbers in single precision: the
value is rounded to double precision first and the result to single precision, both times to the
nearest value and of two to the even one.

* `Numeral.reader`: the longest numeral at the front of a text.
* `Numeral.read?`: the numeral that a whole text spells.
* `Numeral.value`: its value in a script.
-/

namespace SolidScript.Number
open Text (isDigit)

/-- A numeral, taken apart. -/
structure Numeral where
  /-- The digits before the point. -/
  whole : Text
  /-- The digits after the point. -/
  fraction : Text
  /-- The power of ten that the exponent names. -/
  exponent : Int
deriving DecidableEq

namespace Numeral
open Format

/-! ### Spelling -/

/-- At least one digit. -/
def digits : Reader := Reader.some1 isDigit

/-- The letter that starts an exponent. -/
def isExponentMark (c : Char) : Bool := c == 'e' || c == 'E'

/-- The sign of an exponent. -/
def isSign (c : Char) : Bool := c == '+' || c == '-'

/-- Digits with a point after or between them. -/
def pointed : Reader := (digits.andThen (.word ['.'])).andThen (.all isDigit)

/-- Digits with a point before them. -/
def pointFirst : Reader := .andThen (.word ['.']) digits

/-- An exponent. -/
def exponentPart : Reader :=
  .andThen (.one isExponentMark) (.andThen (.optional (.one isSign)) digits)

/-- The longest numeral at the front of a text. -/
def reader : Reader := .andThen (.orElse pointed (.orElse pointFirst digits)) (.optional exponentPart)

/-- The exponent that follows the digits, zero when there is none. -/
def exponentOf : Text → Int
  | []            => 0
  | _ :: '-' :: r => -(Nat.ofDigitChars 10 r 0 : Int)
  | _ :: '+' :: r => (Nat.ofDigitChars 10 r 0 : Int)
  | _ :: r        => (Nat.ofDigitChars 10 r 0 : Int)

/-- The parts of a text that spells a numeral. -/
def ofText (t : Text) : Numeral :=
  let whole := t.takeWhile isDigit
  match t.dropWhile isDigit with
  | '.' :: r => ⟨whole, r.takeWhile isDigit, exponentOf (r.dropWhile isDigit)⟩
  | r        => ⟨whole, [], exponentOf r⟩

/-- The numeral that the whole text spells. -/
def read? (t : Text) : Option Numeral :=
  match reader t with
  | some (_, []) => some (ofText t)
  | _            => none

/-! ### Value -/

/-- The digits on both sides of the point as one number. -/
def mantissa (n : Numeral) : Nat := Nat.ofDigitChars 10 (n.whole ++ n.fraction) 0

/-- The power of ten that the last digit counts. -/
def scale (n : Numeral) : Int := n.exponent - n.fraction.length

/-- The number of digits of the mantissa, leading zeros left out. -/
def significant (n : Numeral) : Nat := ((n.whole ++ n.fraction).dropWhile (· == '0')).length

/-- The code of the double nearest to `mantissa * 10 ^ scale`, where the mantissa has
`significant` digits.  A value of more than four hundred digits before the point is beyond every
double, and one that starts more than four hundred places after it is below half of the least
one. -/
def nearestDouble (mantissa significant : Nat) (scale : Int) : Nat :=
  if mantissa = 0 then 0
  else if 400 < scale + significant then binary64.infinity
  else if scale + significant < -400 then 0
  else if 0 ≤ scale then binary64.nearest (mantissa * Nat.pow 10 scale.toNat) 1
  else binary64.nearest mantissa (Nat.pow 10 (-scale).toNat)

/-- The code of the single precision value nearest to the double of a code. -/
def toSingle (code : Nat) : Nat :=
  if binary64.infinity ≤ code then binary32.infinity
  else binary32.nearest (binary64.units code) (Nat.pow 2 binary64.least)

/-- The code of the double that has the value of a single precision code. -/
def ofSingle (code : Nat) : Nat :=
  if binary32.infinity ≤ code then binary64.infinity
  else binary64.nearest (binary32.units code) (Nat.pow 2 binary32.least)

/-- The code of the single precision value of a numeral. -/
def single (n : Numeral) : Nat := toSingle (nearestDouble n.mantissa n.significant n.scale)

/-- The value of a numeral in a script. -/
def value (n : Numeral) : Double := .ofCode false (ofSingle n.single)

/-- The value that the whole text spells. -/
def value? (t : Text) : Option Double := (read? t).map value

/-! ### What is read is a part of the text -/

theorem splits_reader : reader.Splits := by
  have hd : digits.Splits := Reader.Splits.some1 _
  have hp : pointed.Splits := (hd.andThen (.word _)).andThen (.all _)
  have hf : pointFirst.Splits := .andThen (.word _) hd
  have he : exponentPart.Splits :=
    .andThen (.one _) (.andThen (.optional (.one _)) hd)
  exact .andThen (.orElse hp (.orElse hf hd)) (.optional he)

theorem takes_reader : reader.Takes := by
  have hd : digits.Takes := Reader.Takes.some1 _
  have hp : pointed.Takes := .andThen_left (.andThen_left hd)
  have hf : pointFirst.Takes := .andThen_left (.word (by decide))
  exact .andThen_left (.orElse hp (.orElse hf hd))

/-- A text spells a numeral when the reader takes all of it. -/
theorem read?_isSome_iff {t : Text} : (read? t).isSome ↔ reader t = some (t, []) := by
  unfold read?
  constructor
  · intro h
    split at h
    · rename_i u he
      have := splits_reader.append_eq he
      rw [List.append_nil] at this
      rw [he, this]
    · cases h
  · intro h
    rw [h]
    rfl

end Numeral

end SolidScript.Number
