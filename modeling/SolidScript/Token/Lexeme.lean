import SolidScript.Number.Numeral
import SolidScript.Text.Blank
import SolidScript.Text.Reader
import SolidScript.Text.Word
import SolidScript.Token.Keyword

/-!
# Token — lexemes

Readers for what a script is spelled with: comments, names, strings, the references to other
files, and symbols.  Numerals have a module of their own.
-/

namespace SolidScript.Lexeme
open Text (isBlank isDigit isWord)

/-! ### Comments -/

/-- The text up to and with the first `*/`. -/
def throughClose : Reader
  | []            => none
  | '*' :: '/' :: r => some (['*', '/'], r)
  | c :: r          => (throughClose r).map fun (u, s) => (c :: u, s)

/-- A comment that runs to the end of its line. -/
def lineComment : Reader := .andThen (.word ['/', '/']) (.all (· != '\n'))

/-- A comment between `/*` and the first `*/` after it. -/
def blockComment : Reader := .andThen (.word ['/', '*']) throughClose

/-- A comment of either kind. -/
def comment : Reader := .orElse lineComment blockComment

/-! ### Names and strings -/

/-- The characters that a name starts with: the dollar sign, the low line, and the ASCII letters
and digits. -/
def startsName (c : Char) : Bool := c == '$' || c == '_' || c.isAlphanum

/-- A character that goes on with a word: the dollar sign or a word character. -/
def continuesWord (c : Char) : Bool := c == '$' || isWord c

/-- A name: characters of the kind it starts with, then word characters. -/
def name : Reader := .andThen (.some1 startsName) (.all isWord)

/-- The rest of a string and the quote that closes it.  A backslash takes the next character along,
whatever it is. -/
def stringRest : Reader
  | []            => none
  | '"' :: r      => some (['"'], r)
  | '\\' :: []    => none
  | '\\' :: c :: r => (stringRest r).map fun (u, s) => ('\\' :: c :: u, s)
  | c :: r        => (stringRest r).map fun (u, s) => (c :: u, s)

/-- A string. -/
def string : Reader := .andThen (.word ['"']) stringRest

/-! ### References to files -/

/-- The word `w` and a path between angle brackets. -/
def reference (w : Text) : Reader :=
  .andThen (.word w) (.andThen (.all isBlank) (.andThen (.word ['<'])
    (.andThen (.all (· != '>')) (.word ['>']))))

/-- A file that is used for its definitions. -/
def useFile : Reader := reference (Text.lit "use")

/-- A file that is included. -/
def includeFile : Reader := reference (Text.lit "include")

/-! ### Symbols -/

/-- The symbols.  None stands before a longer one that it starts. -/
def symbols : List Text :=
  [['=', '='], ['!', '='], ['<', '='], ['>', '='], ['&', '&'], ['|', '|'], [';'], ['\x7b'],
   ['\x7d'], ['('], [')'], ['['], [']'], [','], ['='], ['<'], ['>'], ['+'], ['-'], ['*'], ['/'],
   ['%'], ['!'], ['#'], ['?'], [':'], ['.']]

/-- The first symbol of the list that the text starts with. -/
def symbol : Reader := .firstOf (symbols.map Reader.word)

/-! ### What is read is a part of the text -/

theorem splits_throughClose : throughClose.Splits := by
  refine ⟨fun {t u r} h => ?_⟩
  fun_induction throughClose t generalizing u r with
  | case1 => cases h
  | case2 => cases h; rfl
  | case3 c s _ ih =>
    obtain ⟨⟨v, w⟩, hv, he⟩ := Option.map_eq_some_iff.1 h
    cases he
    rw [List.cons_append, ih hv]

theorem splits_stringRest : stringRest.Splits := by
  refine ⟨fun {t u r} h => ?_⟩
  fun_induction stringRest t generalizing u r with
  | case1 => cases h
  | case2 => cases h; rfl
  | case3 => cases h
  | case4 c s ih =>
    obtain ⟨⟨v, w⟩, hv, he⟩ := Option.map_eq_some_iff.1 h
    cases he
    rw [List.cons_append, List.cons_append, ih hv]
  | case5 c s _ _ _ ih =>
    obtain ⟨⟨v, w⟩, hv, he⟩ := Option.map_eq_some_iff.1 h
    cases he
    rw [List.cons_append, ih hv]

theorem splits_comment : comment.Splits :=
  .orElse (.andThen (.word _) (.all _)) (.andThen (.word _) splits_throughClose)

theorem takes_comment : comment.Takes :=
  .orElse (.andThen_left (.word (by decide))) (.andThen_left (.word (by decide)))

theorem splits_name : name.Splits := .andThen (.some1 _) (.all _)

theorem takes_name : name.Takes := .andThen_left (.some1 _)

theorem splits_string : string.Splits := .andThen (.word _) splits_stringRest

theorem takes_string : string.Takes := .andThen_left (.word (by decide))

theorem splits_reference (w : Text) : (reference w).Splits :=
  .andThen (.word _) (.andThen (.all _) (.andThen (.word _) (.andThen (.all _) (.word _))))

theorem takes_reference {w : Text} (h : w ≠ []) : (reference w).Takes := .andThen_left (.word h)

theorem splits_symbol : symbol.Splits := by
  refine .firstOf fun a ha => ?_
  obtain ⟨w, -, rfl⟩ := List.mem_map.1 ha
  exact .word w

theorem takes_symbol : symbol.Takes := by
  refine .firstOf fun a ha => ?_
  obtain ⟨w, hw, rfl⟩ := List.mem_map.1 ha
  refine .word fun hn => ?_
  subst hn
  revert hw
  decide

end SolidScript.Lexeme
