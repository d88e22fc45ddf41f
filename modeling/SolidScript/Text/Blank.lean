import SolidScript.Text.Basic

/-!
# Text — blanks

The twenty-nine characters that separate tokens and mean nothing: the ASCII blanks, the four
ASCII separators, and the space, line and paragraph separators of Unicode.
-/

namespace SolidScript.Text

/-- The blank characters, in code point order. -/
def blanks : List Char :=
  ['\t', '\n', '\x0b', '\x0c', '\r', '\x1c', '\x1d', '\x1e', '\x1f', ' ', '\u0085', '\u00a0',
   '\u1680', '\u2000', '\u2001', '\u2002', '\u2003', '\u2004', '\u2005', '\u2006', '\u2007',
   '\u2008', '\u2009', '\u200a', '\u2028', '\u2029', '\u202f', '\u205f', '\u3000']

/-- A blank separates tokens and means nothing. -/
def isBlank (c : Char) : Bool := blanks.contains c

theorem isBlank_iff {c : Char} : isBlank c = true ↔ c ∈ blanks := by
  simp [isBlank]

end SolidScript.Text
