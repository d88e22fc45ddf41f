import SolidScript.Text.Printable

/-!
# Text — quoted text in messages

A message shows a text between quotes: double ones when the text holds a single quote and no
double one, single ones otherwise.  The quote in use and the backslash are escaped, line feed,
carriage return and tab have their letters, and any other character that does not print is
written by its code point in two, four or eight hexadecimal digits, the fewest of those that hold
it.
-/

namespace SolidScript.Text

/-- The last `width` hexadecimal digits of `n`. -/
def hex : Nat → Nat → Text
  | 0,         _ => []
  | width + 1, n => hex width (n / 16) ++ [Nat.digitChar (n % 16)]

/-- How `c` is written between two marks `quote`. -/
def escaped (quote c : Char) : Text :=
  if c = quote || c = '\\' then ['\\', c]
  else if c = '\n' then ['\\', 'n']
  else if c = '\r' then ['\\', 'r']
  else if c = '\t' then ['\\', 't']
  else if isPrintable c then [c]
  else if c.toNat < 0x100 then '\\' :: 'x' :: hex 2 c.toNat
  else if c.toNat < 0x10000 then '\\' :: 'u' :: hex 4 c.toNat
  else '\\' :: 'U' :: hex 8 c.toNat

/-- The mark that `t` is quoted with. -/
def quoteMark (t : Text) : Char :=
  if t.contains '\'' && !t.contains '"' then '"' else '\''

/-- The text as a message shows it. -/
def quoted (t : Text) : Text :=
  let mark := quoteMark t
  mark :: t.flatMap (escaped mark) ++ [mark]

end SolidScript.Text
