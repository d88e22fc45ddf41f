import SolidScript.Token.Basic

/-!
# Token — lexers

A lexer is a source and a place in it.  Reading moves the place past the token, at the end past
the last gap, and where no token starts up to the character that is in the way, where it stays.  A
place can be sought again.
-/

namespace SolidScript

/-- A source and a place in it. -/
structure Lexer where
  source : Text
  here : Cursor

/-- An offset that does not lie in a source of this length. -/
structure OutOfRange where
  offset : Int
  length : Nat
deriving DecidableEq

/-- The words for it. -/
def OutOfRange.message (e : OutOfRange) : String :=
  "offset " ++ toString e.offset ++ " outside source of length " ++ e.length.repr

namespace Lexer

/-- A lexer before the first character. -/
def ofSource (source : Text) : Lexer := ⟨source, .start source⟩

/-- The number of characters before the place. -/
def position (l : Lexer) : Nat := l.here.offset

/-- The lexer at another place of its source. -/
def seek (l : Lexer) (offset : Int) : Except OutOfRange Lexer :=
  if 0 ≤ offset ∧ offset ≤ l.source.length then
    .ok { l with here := .within l.source offset.toNat }
  else .error ⟨offset, l.source.length⟩

/-- The next token, none at the end. -/
def next (l : Lexer) : Except Unexpected (Option Token) × Lexer :=
  match Token.next l.here with
  | .token t there => (.ok (some t), { l with here := there })
  | .done there    => (.ok none, { l with here := there })
  | .stuck there c => (.error ⟨there.offset, c⟩, { l with here := there })

/-- The tokens that a reading gives, unless it is stuck. -/
def settle (l : Lexer) : List Token × Cursor × Option Unexpected →
    Except Unexpected (List Token) × Lexer
  | (ts, there, none)     => (.ok ts, { l with here := there })
  | (_,  there, some bad) => (.error bad, { l with here := there })

/-- At most `n` tokens. -/
def take (l : Lexer) (n : Nat) : Except Unexpected (List Token) × Lexer :=
  l.settle (Token.upto n l.here)

/-- The tokens up to the end. -/
def rest (l : Lexer) : Except Unexpected (List Token) × Lexer :=
  l.settle (Token.onward l.here)

end Lexer

end SolidScript
