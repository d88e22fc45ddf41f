import SolidScript.Script.OfTree
import SolidScript.Token.Basic

/-!
# Script — words

A script read from the first construct to the last, without the marks that only hold constructs
together: names, numbers, strings, literals, references to files, operators and modifiers.  A plus
sign is not read, since one before an operand leaves no trace.

The tokens of a source have words too (`Token.word?`), so that a script can be laid beside the
source it was read from.
-/

namespace SolidScript

/-- What is read of a script. -/
inductive Word where
  | name (t : Text)
  | number (v : Number.Double)
  | string (t : Text)
  | literal (k : Keyword)
  | file (k : Reference) (path : Text)
  | symbol (t : Text)
deriving DecidableEq

/-- The symbols that are read. -/
def Word.symbols : List Text :=
  [['|', '|'], ['&', '&'], ['<'], ['<', '='], ['>'], ['>', '='], ['=', '='], ['!', '='], ['-'],
   ['*'], ['/'], ['%'], ['!'], ['#']]

/-- The word of a token, if it is one that is read. -/
def Token.word? (k : Token) : Option Word :=
  match k.kind with
  | .number      => (Number.Numeral.value? k.text).map .number
  | .identifier  => some (.name k.text)
  | .string      => some (.string (OfTree.inner k.text))
  | .useFile     => some (.file .use (OfTree.path k.text))
  | .includeFile => some (.file .inclusion (OfTree.path k.text))
  | .keyword     =>
    ([Keyword.trueWord, .falseWord, .undefWord].find? fun w => w.spelling == k.text).map .literal
  | .symbol      => if k.text ∈ Word.symbols then some (.symbol k.text) else none

/-- The words of a symbol: itself, if it is read. -/
def Word.ofSymbol (t : Text) : List Word := if t ∈ Word.symbols then [.symbol t] else []

mutual

/-- The words of an expression. -/
def Expr.words : Expr → List Word
  | .undef _         => [.literal .undefWord]
  | .boolean _ b     => [.literal (if b then .trueWord else .falseWord)]
  | .number _ v      => [.number v]
  | .text _ t        => [.string t]
  | .variable _ n    => [.name n]
  | .member _ e n    => e.words ++ [.name n]
  | .index _ a i     => a.words ++ i.words
  | .vector _ es     => Expr.wordsList es
  | .range _ a s b   => a.words ++ Expr.wordsOption s ++ b.words
  | .call _ n as     => .name n :: Argument.wordsList as
  | .comprehension _ gs as e => Argument.wordsGroups gs ++ Argument.wordsList as ++ e.words
  | .unary _ o e     => Word.ofSymbol o.text ++ e.words
  | .binary _ a o b  => a.words ++ Word.ofSymbol o.text ++ b.words
  | .ternary _ c a b => c.words ++ a.words ++ b.words
  | .led _ _ as e    => Argument.wordsList as ++ e.words

/-- The words of expressions in order. -/
def Expr.wordsList : List Expr → List Word
  | []      => []
  | e :: es => e.words ++ Expr.wordsList es

/-- The words of an expression, if there is one. -/
def Expr.wordsOption : Option Expr → List Word
  | none   => []
  | some e => e.words

/-- The words of an argument. -/
def Argument.words : Argument → List Word
  | .mk _ none e     => e.words
  | .mk _ (some n) e => .name n :: e.words

/-- The words of arguments in order. -/
def Argument.wordsList : List Argument → List Word
  | []      => []
  | a :: as => a.words ++ Argument.wordsList as

/-- The words of groups of arguments in order. -/
def Argument.wordsGroups : List (List Argument) → List Word
  | []      => []
  | g :: gs => Argument.wordsList g ++ Argument.wordsGroups gs

end

/-- The words of a parameter. -/
def Parameter.words (p : Parameter) : List Word := .name p.name :: Expr.wordsOption p.default

/-- The words of a modifier, if there is one. -/
def Modifier.words : Option Modifier → List Word
  | none   => []
  | some m => Word.ofSymbol m.text

/-- The words of the name of a called module: none if it is a keyword. -/
def Word.ofCallee (n : Text) : List Word := if Keyword.isKeyword n then [] else [.name n]

mutual

/-- The words of a statement. -/
def Statement.words : Statement → List Word
  | .empty _                    => []
  | .block _ ss                 => Statement.wordsList ss
  | .moduleDefinition _ n ps s  => .name n :: ps.flatMap Parameter.words ++ s.words
  | .functionDefinition _ n ps e => .name n :: ps.flatMap Parameter.words ++ e.words
  | .assignment _ n e           => .name n :: e.words
  | .call _ n as s m            =>
    Modifier.words m ++ Word.ofCallee n ++ Argument.wordsList as ++ s.words
  | .loop _ as s m              => Modifier.words m ++ Argument.wordsList as ++ s.words
  | .conditional _ e a b        => e.words ++ a.words ++ Statement.wordsOption b
  | .modified _ m s             => Word.ofSymbol m.text ++ s.words
  | .file _ k t                 => [.file k t]

/-- The words of statements in order. -/
def Statement.wordsList : List Statement → List Word
  | []      => []
  | s :: ss => s.words ++ Statement.wordsList ss

/-- The words of a statement, if there is one. -/
def Statement.wordsOption : Option Statement → List Word
  | none   => []
  | some s => s.words

end

/-- The words of a script. -/
def Script.words (s : Script) : List Word := Statement.wordsList s

end SolidScript
