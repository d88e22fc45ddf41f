import SolidScript.Text.Basic

/-!
# Token — keywords

The eleven words that are never names.
-/

namespace SolidScript

/-- A keyword. -/
inductive Keyword where
  | moduleWord
  | functionWord
  | ifWord
  | elseWord
  | forWord
  | letWord
  | echoWord
  | assertWord
  | trueWord
  | falseWord
  | undefWord
deriving DecidableEq, Repr

namespace Keyword

/-- How the keyword is written. -/
def text : Keyword → String
  | moduleWord   => "module"
  | functionWord => "function"
  | ifWord       => "if"
  | elseWord     => "else"
  | forWord      => "for"
  | letWord      => "let"
  | echoWord     => "echo"
  | assertWord   => "assert"
  | trueWord     => "true"
  | falseWord    => "false"
  | undefWord    => "undef"

/-- The characters of the keyword. -/
def spelling (k : Keyword) : Text := Text.lit k.text

/-- Every keyword. -/
def all : List Keyword :=
  [moduleWord, functionWord, ifWord, elseWord, forWord, letWord, echoWord, assertWord, trueWord,
   falseWord, undefWord]

theorem mem_all (k : Keyword) : k ∈ all := by cases k <;> decide

/-- The text is a keyword. -/
def isKeyword (t : Text) : Bool := all.any fun k => k.spelling == t

theorem isKeyword_iff {t : Text} : isKeyword t = true ↔ ∃ k : Keyword, k.spelling = t := by
  simp [isKeyword, mem_all]

end Keyword

end SolidScript
