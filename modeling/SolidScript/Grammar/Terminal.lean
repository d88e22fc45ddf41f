import SolidScript.Token.Gap

/-!
# Grammar — terminals

The terminals of the grammar and how each one reads a lexeme.  They are read off the source
itself, not off its tokens, and each looks just far enough ahead to read what the longest token at
its place is: a keyword is not the front of a longer name, a name is no keyword and not the front
of a number that is at least as long, and a number is not the front of a longer name.

* `Terminal.name`: what a terminal is called where it is missed.
* `Terminal.reader`: the lexeme that it reads.
-/

namespace SolidScript
open Text (isDigit)

/-- The marks that stand for themselves. -/
inductive Mark where
  | semicolon
  | comma
  | colon
  | question
  | assign
  | openParen
  | closeParen
  | openBrace
  | closeBrace
  | openBracket
  | closeBracket
deriving DecidableEq, Repr

namespace Mark

/-- How the mark is written. -/
def char : Mark → Char
  | semicolon    => ';'
  | comma        => ','
  | colon        => ':'
  | question     => '?'
  | assign       => '='
  | openParen    => '('
  | closeParen   => ')'
  | openBrace    => '\x7b'
  | closeBrace   => '\x7d'
  | openBracket  => '['
  | closeBracket => ']'

end Mark

/-- A terminal of the grammar. -/
inductive Terminal where
  | comment
  | useFile
  | includeFile
  | identifier
  | number
  | string
  | keyword (k : Keyword)
  | mark (m : Mark)
  | period
  | logical
  | comparison
  | additive
  | multiplicative
  | unary
  | modifier
  | endOfInput
deriving DecidableEq, Repr

namespace Terminal
open Lexeme (continuesWord startsName)

/-- What the terminal is called where it is missed. -/
def name : Terminal → String
  | comment        => "comment"
  | useFile        => "use<...>"
  | includeFile    => "include<...>"
  | identifier     => "identifier"
  | number         => "number"
  | string         => "string"
  | keyword k      => k.text
  | mark m         => String.singleton m.char
  | period         => "."
  | logical        => "logical operator"
  | comparison     => "comparison operator"
  | additive       => "additive operator"
  | multiplicative => "multiplicative operator"
  | unary          => "unary operator"
  | modifier       => "modifier"
  | endOfInput     => "EOF"

/-! ### Readers -/

/-- The keyword, unless a longer word starts with it. -/
def keywordReader (k : Keyword) : Reader := .notBefore (.word k.spelling) continuesWord

/-- Any keyword. -/
def anyKeyword : Reader := .firstOf (Keyword.all.map keywordReader)

/-- A digit sequence that is the front of a number at least as long as a name can be: a point
follows, or a signed exponent, or the end of the word, perhaps after an unsigned exponent. -/
def numberAhead : Reader :=
  .andThen (.some1 isDigit)
    (.orElse (.word ['.'])
      (.orElse
        (.andThen (.one Number.Numeral.isExponentMark)
          (.andThen (.one Number.Numeral.isSign) (.one isDigit)))
        (.notBefore
          (.optional (.andThen (.one Number.Numeral.isExponentMark) (.some1 isDigit)))
          continuesWord)))

/-- A name that is no keyword and no number. -/
def identifierReader : Reader := .excluding (.excluding Lexeme.name anyKeyword) numberAhead

/-- Digits with an exponent that has a sign. -/
def signedExponent : Reader :=
  .andThen (.some1 isDigit) (.andThen (.one Number.Numeral.isExponentMark)
    (.andThen (.one Number.Numeral.isSign) (.some1 isDigit)))

/-- Digits, perhaps with an exponent that has no sign, where the word ends. -/
def plainNumber : Reader :=
  .notBefore
    (.andThen (.some1 isDigit)
      (.optional (.andThen (.one Number.Numeral.isExponentMark) (.some1 isDigit))))
    continuesWord

/-- Digits with a point, perhaps with an exponent. -/
def pointNumber : Reader :=
  .andThen (.orElse Number.Numeral.pointed Number.Numeral.pointFirst)
    (.optional Number.Numeral.exponentPart)

/-- A number, where no longer name starts. -/
def numberReader : Reader := .orElse pointNumber (.orElse signedExponent plainNumber)

/-- One of the characters. -/
def oneOf (cs : List Char) : Reader := .one cs.contains

/-- A minus, a plus, or an exclamation mark that does not start the symbol `!=`. -/
def unaryReader : Reader := .orElse (oneOf ['-', '+']) (.notBefore (.word ['!']) (· == '='))

/-- Nothing is left. -/
def endReader : Reader
  | []     => some ([], [])
  | _ :: _ => none

/-- The lexeme that the terminal reads. -/
def reader : Terminal → Reader
  | comment        => Lexeme.comment
  | useFile        => Lexeme.useFile
  | includeFile    => Lexeme.includeFile
  | identifier     => identifierReader
  | number         => numberReader
  | string         => Lexeme.string
  | keyword k      => keywordReader k
  | mark m         => .word [m.char]
  | period         => .notBefore (.word ['.']) isDigit
  | logical        => .orElse (.word ['|', '|']) (.word ['&', '&'])
  | comparison     =>
      .firstOf [.word ['<', '='], .word ['>', '='], .word ['=', '='], .word ['!', '='],
        .word ['<'], .word ['>']]
  | additive       => oneOf ['-', '+']
  | multiplicative => oneOf ['*', '/', '%']
  | unary          => unaryReader
  | modifier       => oneOf ['*', '!', '#', '%']
  | endOfInput     => endReader

/-! ### What is read is a part of the text -/

theorem splits_oneOf (cs : List Char) : (oneOf cs).Splits := .one _

theorem splits_numberReader : numberReader.Splits := by
  have digits : (Reader.some1 isDigit).Splits := .some1 _
  have pointed : Number.Numeral.pointed.Splits := (digits.andThen (.word _)).andThen (.all _)
  have pointFirst : Number.Numeral.pointFirst.Splits := .andThen (.word _) digits
  have exponent : Number.Numeral.exponentPart.Splits :=
    .andThen (.one _) (.andThen (.optional (.one _)) digits)
  have signed : signedExponent.Splits :=
    digits.andThen (.andThen (.one _) (.andThen (.one _) digits))
  have plain : plainNumber.Splits :=
    .notBefore (digits.andThen (.optional (.andThen (.one _) digits)))
  exact .orElse (.andThen (.orElse pointed pointFirst) (.optional exponent)) (.orElse signed plain)

theorem takes_numberReader : numberReader.Takes := by
  have digits : (Reader.some1 isDigit).Takes := .some1 _
  have pointed : Number.Numeral.pointed.Takes := .andThen_left (.andThen_left digits)
  have pointFirst : Number.Numeral.pointFirst.Takes := .andThen_left (.word (by decide))
  exact .orElse (.andThen_left (.orElse pointed pointFirst))
    (.orElse (.andThen_left digits) (.notBefore (.andThen_left digits)))

/-- What a terminal reads is a part of the text. -/
theorem splits_reader : ∀ t : Terminal, t.reader.Splits
  | comment     => Lexeme.splits_comment
  | useFile     => Lexeme.splits_reference _
  | includeFile => Lexeme.splits_reference _
  | identifier  => .excluding (.excluding Lexeme.splits_name)
  | number      => splits_numberReader
  | string      => Lexeme.splits_string
  | keyword _   => .notBefore (.word _)
  | mark _      => .word _
  | period      => .notBefore (.word _)
  | logical     => .orElse (.word _) (.word _)
  | comparison  => .firstOf (by simp [Reader.Splits.word])
  | additive | multiplicative | modifier => splits_oneOf _
  | unary       => .orElse (splits_oneOf _) (.notBefore (.word _))
  | endOfInput  => ⟨fun {t u r} h => by cases t <;> cases h; rfl⟩

/-- Every terminal but the end of the input takes a character. -/
theorem takes_reader : ∀ {t : Terminal}, t ≠ endOfInput → t.reader.Takes
  | comment,     _ => Lexeme.takes_comment
  | useFile,     _ => Lexeme.takes_reference (by decide)
  | includeFile, _ => Lexeme.takes_reference (by decide)
  | identifier,  _ => .excluding (.excluding Lexeme.takes_name)
  | number,      _ => takes_numberReader
  | string,      _ => Lexeme.takes_string
  | keyword k,   _ => .notBefore (.word (by cases k <;> decide))
  | mark _,      _ => .word (List.cons_ne_nil _ _)
  | period,      _ => .notBefore (.word (List.cons_ne_nil _ _))
  | logical,     _ => .orElse (.word (List.cons_ne_nil _ _)) (.word (List.cons_ne_nil _ _))
  | comparison,  _ => .firstOf (by simp [Reader.Takes.word])
  | additive,    _ | multiplicative, _ | modifier, _ => .one _
  | unary,       _ => .orElse (.one _) (.notBefore (.word (List.cons_ne_nil _ _)))
  | endOfInput,  h => absurd rfl h

end Terminal

end SolidScript
