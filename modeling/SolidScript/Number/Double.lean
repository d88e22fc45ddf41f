import SolidScript.Number.Format
import SolidScript.Text.Quoted

/-!
# Number — double precision values

A double is its sixty-four bits: the sign, and below it the code of the magnitude in the format
`binary64`.  Codes above that of infinity are not numbers.

* `Double.same`: equality of values, by which zero has one value under both signs and what is not
  a number differs from everything.
-/

namespace SolidScript.Number

/-- A double precision value. -/
structure Double where
  bits : UInt64
deriving DecidableEq

namespace Double
open Format

/-- The value of the sign bit, above every code. -/
def signBit : Nat := 0x8000000000000000

/-- The double with this sign and this code of its magnitude. -/
def ofCode (negative : Bool) (code : Nat) : Double :=
  ⟨UInt64.ofNat ((if negative then signBit else 0) + code)⟩

/-- The sign bit is set. -/
def negative (d : Double) : Bool := signBit ≤ d.bits.toNat

/-- The code of the magnitude. -/
def code (d : Double) : Nat := d.bits.toNat % signBit

/-- The magnitude is infinite. -/
def isInfinite (d : Double) : Bool := d.code == binary64.infinity

/-- The bits stand for no number. -/
def isNaN (d : Double) : Bool := binary64.infinity < d.code

/-- Equality of values. -/
def same (a b : Double) : Bool :=
  !a.isNaN && !b.isNaN && (a.bits == b.bits || (a.code == 0 && b.code == 0))

/-- The bits in hexadecimal, the most significant first. -/
def hex (d : Double) : Text := Text.hex 16 d.bits.toNat

theorem code_ofCode {negative : Bool} {c : Nat} (h : c < signBit) :
    (ofCode negative c).code = c := by
  unfold ofCode code
  unfold signBit at *
  rw [UInt64.toNat_ofNat_of_lt' (by cases negative <;> simp [UInt64.size] <;> omega)]
  cases negative <;> simp <;> omega

theorem negative_ofCode {s : Bool} {c : Nat} (h : c < signBit) : (ofCode s c).negative = s := by
  unfold ofCode negative
  unfold signBit at *
  rw [UInt64.toNat_ofNat_of_lt' (by cases s <;> simp [UInt64.size] <;> omega)]
  cases s
  · simp; omega
  · simp

/-- Values are equal to themselves unless they are no numbers. -/
theorem same_self {d : Double} : d.same d = !d.isNaN := by
  simp [same]

end Double

end SolidScript.Number
