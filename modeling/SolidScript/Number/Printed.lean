import SolidScript.Number.Shortest

/-!
# Number — printed numbers

A finite number is printed with its shortest digits.  When the power of ten of the first digit is
at least -4 and less than 16 the digits stand around a point, with at least one digit on either
side of it; otherwise a point follows the first digit, if there are more, and the exponent comes
last with its sign and at least two digits.  An infinite number is printed as the literal `1e39`,
which is too large for single precision and so reads back as infinite.
-/

namespace SolidScript.Number

namespace Decimal

/-- The digits, zeros at the end left out. -/
def shown (d : Decimal) : Text :=
  ((Nat.toDigits 10 d.digits).reverse.dropWhile (· == '0')).reverse

/-- How many digits stand before the point, negative when zeros follow the point. -/
def point (d : Decimal) : Int := (Nat.toDigits 10 d.digits).length + d.scale

end Decimal

/-- The least power of ten of the first digit that is printed without an exponent. -/
def leastPositional : Int := -4

/-- The least power of ten of the first digit, above that, that is printed with an exponent. -/
def leastScientific : Int := 16

/-- The digits with a point among them, `point` digits before it. -/
def positional (digits : Text) (point : Int) : Text :=
  if point ≤ 0 then '0' :: '.' :: List.replicate (-point).toNat '0' ++ digits
  else if digits.length ≤ point.toNat then
    digits ++ List.replicate (point.toNat - digits.length) '0' ++ ['.', '0']
  else digits.take point.toNat ++ '.' :: digits.drop point.toNat

/-- A natural number in at least two digits. -/
def twoDigits (n : Nat) : Text :=
  if n < 10 then '0' :: Nat.toDigits 10 n else Nat.toDigits 10 n

/-- The digits with a point after the first and the power of ten of the first. -/
def scientific (digits : Text) (exponent : Int) : Text :=
  digits.take 1 ++ (if digits.length ≤ 1 then [] else '.' :: digits.drop 1) ++
    'e' :: (if exponent < 0 then '-' else '+') :: twoDigits exponent.natAbs

/-- A positive decimal as it is printed. -/
def Decimal.print (d : Decimal) : Text :=
  let exponent := d.point - 1
  if leastPositional ≤ exponent ∧ exponent < leastScientific then positional d.shown d.point
  else scientific d.shown exponent

/-- The literal that reads back as infinite. -/
def infinite : Text := ['1', 'e', '3', '9']

/-- A magnitude as it is printed. -/
def printMagnitude (code : Nat) : Text :=
  if code = 0 then ['0', '.', '0']
  else if Format.binary64.infinity ≤ code then infinite
  else (Shortest.decimal code).print

/-- A double as it is printed. -/
def Double.print (d : Double) : Text :=
  if d.isNaN then ['n', 'a', 'n']
  else if d.negative then '-' :: printMagnitude d.code
  else printMagnitude d.code

end SolidScript.Number
