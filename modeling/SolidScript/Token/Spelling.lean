import SolidScript.Text.Pattern
import SolidScript.Token.Basic

/-!
# Token — spelling

The classes of tokens as patterns: which texts are numerals, names, strings, references to files
and symbols, whatever stands around them.
-/

namespace SolidScript.Spelling
open Pattern
open Text (isBlank isDigit isWord)

/-- Digits. -/
def digits : Pattern := plus (one isDigit)

/-- An exponent of ten. -/
def exponent : Pattern :=
  sequence [one Number.Numeral.isExponentMark, maybe (one Number.Numeral.isSign), digits]

/-- Numerals. -/
def number : Pattern :=
  seq
    (either (sequence [digits, exactly ['.'], star (one isDigit)])
      (either (seq (exactly ['.']) digits) digits))
    (maybe exponent)

/-- Names. -/
def identifier : Pattern := seq (plus (one Lexeme.startsName)) (star (one isWord))

/-- A character of a string, or a backslash and the character after it. -/
def stringPiece : Pattern :=
  either (one fun c => c != '"' && c != '\\') (seq (exactly ['\\']) (one fun _ => true))

/-- Strings. -/
def string : Pattern := sequence [exactly ['"'], star stringPiece, exactly ['"']]

/-- References by the word `w`. -/
def reference (w : Text) : Pattern :=
  sequence [exactly w, star (one isBlank), exactly ['<'], star (one (· != '>')), exactly ['>']]

/-- One of the texts. -/
def anyOf : List Text → Pattern
  | []      => one fun _ => false
  | w :: ws => either (exactly w) (anyOf ws)

/-- The classes that compete for a token, in order of priority. -/
def classes : List (TokenKind × Pattern) :=
  [(.number, number), (.identifier, identifier), (.string, string),
   (.useFile, reference (Text.lit "use")), (.includeFile, reference (Text.lit "include")),
   (.symbol, anyOf Lexeme.symbols)]

/-- The text belongs to the class. -/
def Belongs (kind : TokenKind) (t : Text) : Prop :=
  ∃ p, (kind, p) ∈ classes ∧ p.Spells t

theorem spells_anyOf_iff {ws : List Text} {t : Text} : (anyOf ws).Spells t ↔ t ∈ ws := by
  induction ws with
  | nil =>
    simp only [anyOf, List.not_mem_nil, iff_false]
    rintro ⟨⟩
    contradiction
  | cons w ws ih => rw [anyOf, spells_either_iff, spells_exactly_iff, ih, List.mem_cons]

end SolidScript.Spelling
