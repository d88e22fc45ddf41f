import SolidScript.Grammar.Furthest
import SolidScript.Grammar.Table

/-!
# Grammar — matching

A terminal matches after the gap at its place; a rule matches by its production.  Matching is
greedy and takes no finished choice back: the first alternative that matches is the choice, and a
repetition goes on as long as it can.  A separator after which nothing follows is given back.

Along the way a record is kept of the furthest place that was reached and of what was missed there
(`Furthest`), and what became of a rule at a place is kept in a table and not worked out again.
What is taken from the table leaves the record as it is, because it left its mark there before.

Rules and terminals that are entered inside each other are counted, and a match that would go
deeper than the limit is given up: then there is no answer about the source.
-/

namespace SolidScript
open Text (isBlank)

namespace Grammar

/-- Blanks, then comments with the blanks after each. -/
def skip : Reader :=
  .andThen (.all isBlank) (.many (.andThen Lexeme.comment (.all isBlank)))

theorem splits_skip : skip.Splits :=
  .andThen (.all _) (.many (.andThen Lexeme.splits_comment (.all _)))

/-- The place where the next lexeme starts. -/
def afterSkip (here : Cursor) : Cursor :=
  match here.read skip with
  | some (_, next) => next
  | none           => here

/-- What a match carries along: the furthest failure, and what is known of the rules. -/
structure State where
  furthest : Furthest
  table : Table

/-- The state with one more terminal missed at a place. -/
def State.miss (s : State) (offset : Nat) (t : Terminal) : State :=
  { s with furthest := s.furthest.miss offset t }

/-- The state with one more place reached. -/
def State.reach (s : State) (offset : Nat) : State :=
  { s with furthest := s.furthest.reach offset }

/-- The state with one thing more in its table. -/
def State.learn (s : State) (r : Rule) (offset : Nat) (k : Known) : State :=
  { s with table := s.table.insert r offset k }

/-- What becomes of an attempt to match. -/
inductive Reply where
  | matched (trees : List Tree) (next : Cursor) (state : State)
  | failed (state : State)
  | tooDeep

/-- The reply with these trees before its own. -/
def Reply.after (ts : List Tree) : Reply → Reply
  | .matched us next s => .matched (ts ++ us) next s
  | .failed s          => .failed s
  | .tooDeep           => .tooDeep

/-- An attempt to match a piece at a place. -/
abbrev Attempt := Piece → Cursor → State → Reply

/-- The terminal, after the gap. -/
def matchTerminal (t : Terminal) (here : Cursor) (s : State) : Reply :=
  let there := afterSkip here
  match there.read t.reader with
  | some (text, next) => .matched [.leaf t there.offset text] next s
  | none              => .failed (s.miss there.offset t)

/-- Nothing, unless the terminal matches after the gap. -/
def matchNotAhead (t : Terminal) (here : Cursor) (s : State) : Reply :=
  let there := afterSkip here
  match there.read t.reader with
  | some _ => .failed (s.reach here.offset)
  | none   => .matched [] here (s.reach there.offset)

/-- All pieces, one after the other. -/
def inOrder (attempt : Attempt) : List Piece → Cursor → State → Reply
  | [],            here, s => .matched [] here s
  | piece :: pieces, here, s =>
    match attempt piece here s with
    | .failed s'           => .failed s'
    | .tooDeep             => .tooDeep
    | .matched ts there s' => (inOrder attempt pieces there s').after ts

/-- The first of the pieces that matches. -/
def firstOf (attempt : Attempt) : List Piece → Cursor → State → Reply
  | [],            _,    s => .failed s
  | piece :: pieces, here, s =>
    match attempt piece here s with
    | .failed s'           => firstOf attempt pieces here s'
    | .tooDeep             => .tooDeep
    | .matched ts there s' => .matched ts there s'

/-- The piece, or nothing. -/
def orNothing (attempt : Attempt) (piece : Piece) (here : Cursor) (s : State) : Reply :=
  match attempt piece here s with
  | .failed s'           => .matched [] here s'
  | .tooDeep             => .tooDeep
  | .matched ts there s' => .matched ts there s'

/-- All of the pieces in order, again and again until they fail.  Each time they take a character,
so they match no more often than the budget, the rest of the source, has characters. -/
def again (attempt : Attempt) (pieces : List Piece) (budget : Text) (here : Cursor) (s : State) :
    Reply :=
  match inOrder attempt pieces here s with
  | .failed s'           => .matched [] here s'
  | .tooDeep             => .tooDeep
  | .matched ts there s' =>
    match budget with
    | []          => .matched ts there s'
    | _ :: budget => (again attempt pieces budget there s').after ts

/-- The piece at least once, with the separator between two, if there is one. -/
def chained (attempt : Attempt) (piece : Piece) (separator : Option Piece) (here : Cursor)
    (s : State) : Reply :=
  match attempt piece here s with
  | .failed s'           => .failed s'
  | .tooDeep             => .tooDeep
  | .matched ts there s' =>
    (again attempt (separator.toList ++ [piece]) there.rest there s').after ts

/-- A production, with attempts for its pieces. -/
def expand (attempt : Attempt) : Production → Cursor → State → Reply
  | .sequence pieces       => inOrder attempt pieces
  | .choice pieces         => firstOf attempt pieces
  | .maybe piece           => orNothing attempt piece
  | .many piece            => fun here => again attempt [piece] here.rest here
  | .chain piece separator => chained attempt piece separator
  | .notAhead t           => matchNotAhead t

/-- A rule by its production, with what became of it put into the table. -/
def matchRule (attempt : Attempt) (remember : Bool) (r : Rule) (here : Cursor) (s : State) :
    Reply :=
  match expand attempt r.production here s with
  | .tooDeep             => .tooDeep
  | .failed s'           =>
    .failed (if remember then s'.learn r here.offset .failed else s')
  | .matched ts there s' =>
    let trees := Tree.gather r ts
    .matched trees there
      (if remember then s'.learn r here.offset (.matched trees there) else s')

/-- A piece at a place, at most `depth` pieces deep.  With `remember` a rule whose fate is known is
not tried again. -/
def attempt (remember : Bool) : Nat → Piece → Cursor → State → Reply
  | 0,         _,       _,    _ => .tooDeep
  | _ + 1,     .term t, here, s => matchTerminal t here s
  | depth + 1, .rule r, here, s =>
    match s.table.find? r here.offset with
    | some (.matched ts there) => .matched ts there s
    | some .failed             => .failed s
    | none                     => matchRule (attempt remember depth) remember r here s

/-! ### Whole sources -/

/-- How a source is matched. -/
structure Settings where
  /-- How many pieces may be entered inside each other. -/
  depth : Nat
  /-- What becomes of a rule at a place is kept. -/
  remember : Bool

/-- What becomes of a source. -/
inductive Verdict where
  | accepted (tree : Tree)
  | refused (furthest : Furthest)
  | tooDeep

/-- The blanks and line comments that a source starts with. -/
def preface : Reader :=
  .andThen (.all isBlank) (.many (.andThen Lexeme.lineComment (.all isBlank)))

/-- The record that a match starts with.  The first thing looked for is a comment, and the first
comment that is missed counts; later ones do not. -/
def firstRecord (source : Text) : Furthest :=
  match (Cursor.start source).read preface with
  | some (_, next) => ⟨next.offset, [.comment]⟩
  | none           => ⟨0, [.comment]⟩

/-- The state that a match starts with. -/
def State.start (source : Text) : State := ⟨firstRecord source, .empty⟩

/-- The source as a document. -/
def judge (settings : Settings) (source : Text) : Verdict :=
  match attempt settings.remember settings.depth (.rule .document) (.start source)
      (.start source) with
  | .matched [tree] _ _ => .accepted tree
  | .matched _ _ s      => .refused s.furthest
  | .failed s           => .refused s.furthest
  | .tooDeep            => .tooDeep

end Grammar

end SolidScript
