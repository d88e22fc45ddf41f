import SolidScript.Text.Quoted
import SolidScript.Token.Gap

/-!
# Token — tokens

A token is a classified piece of a source.  The classes compete by length: the longest lexeme at a
place is the token, and of classes with equally long ones the first in the order numeral, name,
string, used file, included file, symbol has it.  A name that is a keyword is a keyword.

* `Token.next`: the token after the gap at a place, the end of the source, or the character that
  no class accepts.
* `Token.upto`: the tokens from a place on.
-/

namespace SolidScript

/-- The class of a token. -/
inductive TokenKind where
  | number
  | identifier
  | string
  | useFile
  | includeFile
  | keyword
  | symbol
deriving DecidableEq, Repr

/-- A classified piece of a source. -/
structure Token where
  kind : TokenKind
  text : Text
  /-- The number of characters before it. -/
  start : Nat
deriving DecidableEq

/-- A character that starts no token, and the number of characters before it. -/
structure Unexpected where
  offset : Nat
  char : Char
deriving DecidableEq

namespace TokenKind

/-- The name of the class in a token's description. -/
def name : TokenKind → String
  | number      => "NUMBER"
  | identifier  => "IDENTIFIER"
  | string      => "STRING"
  | useFile     => "USE"
  | includeFile => "INCLUDE"
  | keyword     => "KEYWORD"
  | symbol      => "SYMBOL"

end TokenKind

namespace Token

/-- The number of characters before its end. -/
def stop (t : Token) : Nat := t.start + t.text.length

/-- The class, the text and the offset, as one line. -/
def describe (t : Token) : String :=
  "Token(" ++ t.kind.name ++ ", " ++ Text.string (Text.quoted t.text) ++ ", " ++ t.start.repr ++ ")"

/-! ### The longest lexeme -/

/-- The classes and their readers, in order of priority. -/
def classes : List (TokenKind × Reader) :=
  [(.number, Number.Numeral.reader), (.identifier, Lexeme.name), (.string, Lexeme.string),
   (.useFile, Lexeme.useFile), (.includeFile, Lexeme.includeFile), (.symbol, Lexeme.symbol)]

/-- A lexeme of a class and what follows it. -/
abbrev Found := TokenKind × Text × Text

/-- The longer of what was found and what this class reads; of two as long, what was found. -/
def longer (t : Text) (found : Option Found) (candidate : TokenKind × Reader) : Option Found :=
  match candidate.2 t, found with
  | none,        found             => found
  | some (u, r), none              => some (candidate.1, u, r)
  | some (u, r), some (k, v, rest) =>
    if v.length < u.length then some (candidate.1, u, r) else some (k, v, rest)

/-- The longest lexeme of these classes at the front of a text, its class, and what follows it. -/
def longestAmong (classes : List (TokenKind × Reader)) (t : Text) : Option Found :=
  classes.foldl (longer t) none

/-- The longest lexeme at the front of a text, its class, and what follows it. -/
def longest (t : Text) : Option Found := longestAmong classes t

/-- A name that is a keyword is a keyword. -/
def reclassify (kind : TokenKind) (t : Text) : TokenKind :=
  if kind = .identifier ∧ Keyword.isKeyword t then .keyword else kind

/-! ### The tokens of a source -/

/-- What comes after the gap at a place. -/
inductive Step where
  | token (t : Token) (next : Cursor)
  | done (here : Cursor)
  | stuck (here : Cursor) (c : Char)

/-- The token after the gap at a place, the end, or the character that no class accepts. -/
def next (here : Cursor) : Step :=
  let there := here.afterGap
  match there.rest with
  | []     => .done there
  | c :: _ =>
    match longest there.rest with
    | none              => .stuck there c
    | some (kind, u, r) =>
      .token ⟨reclassify kind u, u, there.offset⟩ ⟨there.offset + u.length, r⟩

/-- At most so many tokens from a place on: the tokens read, the place where reading stopped, and
the character that stopped it, if one did. -/
def upto : Nat → Cursor → List Token × Cursor × Option Unexpected
  | 0,     here => ([], here, none)
  | n + 1, here =>
    match next here with
    | .done there    => ([], there, none)
    | .stuck there c => ([], there, some ⟨there.offset, c⟩)
    | .token t there =>
      let (ts, stop, bad) := upto n there
      (t :: ts, stop, bad)

/-- All tokens from a place on.  A token takes a character, so there are no more of them than
characters. -/
def onward (here : Cursor) : List Token × Cursor × Option Unexpected :=
  upto (here.rest.length + 1) here

/-- The tokens of a source, or the first character that starts none. -/
def ofSource (source : Text) : Except Unexpected (List Token) :=
  match onward (.start source) with
  | (ts, _, none)   => .ok ts
  | (_, _, some bad) => .error bad

end Token

end SolidScript
