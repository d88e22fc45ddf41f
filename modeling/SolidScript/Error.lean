import SolidScript.Grammar.Terminal
import SolidScript.Number.Numeral
import SolidScript.Text.Position
import SolidScript.Token.Basic

/-!
# Errors

Reading stops at the first thing that is wrong.  What is wrong is a `Cause`; a `Failure` says where
in the source it is; and a `Report` is what is told about it: a message, a position in a labelled
source, and the names of what would have been accepted there.
-/

namespace SolidScript

/-- The kinds of reports. -/
inductive ReportKind where
  /-- Anything else. -/
  | general
  /-- No token starts here. -/
  | lexical
  /-- The tokens make up no document. -/
  | grammatical
  /-- A text is no number. -/
  | numeric
deriving DecidableEq, Repr

/-- What is told about an error. -/
structure Report where
  kind : ReportKind
  message : String
  position : Position
  /-- What would have been accepted, in order. -/
  expected : List String

/-- The report on one line: where, and what. -/
def Report.text (r : Report) : String := r.position.text ++ ": " ++ r.message

/-- What can be wrong with a source. -/
inductive Cause where
  /-- No token starts with the character. -/
  | unexpected (c : Char)
  /-- None of the terminals that could come here does. -/
  | missed (expected : List Terminal)
  /-- Constructs stand inside each other too deep. -/
  | tooDeep
  /-- A text is no number. -/
  | notNumeral (t : Text)
  /-- A tree does not have the shape that the grammar gives it. -/
  | misshapen
deriving DecidableEq

namespace Cause

/-- The kind of report that is made. -/
def kind : Cause → ReportKind
  | unexpected _ => .lexical
  | missed _     => .grammatical
  | tooDeep      => .grammatical
  | notNumeral _ => .numeric
  | misshapen    => .general

/-- What would have been accepted. -/
def expected : Cause → List String
  | missed ts => ts.map Terminal.name
  | _         => []

/-- The names as alternatives. -/
def alternatives (names : List String) : String :=
  " or ".intercalate (names.map fun n => "'" ++ n ++ "'")

/-- The words for it. -/
def message : Cause → String
  | unexpected c => "unexpected character " ++ Text.string (Text.quoted [c])
  | missed []    => "Not expected input"
  | missed ts    => "Expected " ++ alternatives (ts.map Terminal.name)
  | tooDeep      => "nesting too deep"
  | notNumeral t => "invalid numeric literal " ++ Text.string (Text.quoted t)
  | misshapen    => "unreadable tree"

/-- The report of it at a position. -/
def report (c : Cause) (p : Position) : Report := ⟨c.kind, c.message, p, c.expected⟩

end Cause

/-- What is wrong with a source, and how many characters lie before it. -/
structure Failure where
  cause : Cause
  offset : Nat
deriving DecidableEq

/-- The report of a failure in a labelled source. -/
def Failure.report (f : Failure) (origin : String) (source : Text) : Report :=
  f.cause.report ⟨origin, f.offset, source⟩

/-- The report of a character that starts no token. -/
def Unexpected.report (u : Unexpected) (origin : String) (source : Text) : Report :=
  Failure.report ⟨.unexpected u.char, u.offset⟩ origin source

namespace Number

/-- The label of a number that comes from no source. -/
def noOrigin : String := "<number>"

/-- The number that the text spells.  What is wrong with it is reported at the position, or where
there is none at the start of the text itself. -/
def read (t : Text) (position : Option Position) : Except Report Double :=
  match Numeral.value? t with
  | some v => .ok v
  | none   => .error ((Cause.notNumeral t).report (position.getD ⟨noOrigin, 0, t⟩))

end Number

end SolidScript
