import SolidScript.Text.Basic

/-!
# Text — positions

A position names a place in a source that has a label.  It is kept as an offset; the line, the
column and the offset in bytes are read off the source.  Lines end at a line feed and at nothing
else, and lines and columns count from one.  A place that does not lie in the source is on line
one, in column one.
-/

namespace SolidScript

/-- A place in a labelled source. -/
structure Position where
  /-- The label of the source. -/
  origin : String
  /-- The number of characters before the place. -/
  offset : Int
  /-- The source itself, empty when it is not known. -/
  source : Text
deriving DecidableEq

namespace Position

/-- The place lies in a source that is known: before a character of it or at its end. -/
def inside (p : Position) : Bool :=
  !p.source.isEmpty && decide (0 ≤ p.offset) && decide (p.offset ≤ p.source.length)

/-- How many characters lie before the place.  A negative offset counts from the end of the
source, and none leads out of it. -/
def index (p : Position) : Nat :=
  if 0 ≤ p.offset then min p.offset.toNat p.source.length
  else (p.source.length + p.offset).toNat

/-- The characters before the place. -/
def before (p : Position) : Text := p.source.take p.index

/-- The line, counted from one. -/
def line (p : Position) : Nat :=
  if p.inside then p.before.count '\n' + 1 else 1

/-- The column, counted from one. -/
def column (p : Position) : Nat :=
  if p.inside then (p.before.reverse.takeWhile (· ≠ '\n')).length + 1 else 1

/-- The number of bytes that a text takes in UTF-8. -/
def bytes (t : Text) : Nat := t.foldl (fun n c => n + c.utf8Size) 0

/-- The offset of the place in the bytes of the source, or the offset itself when the source is
not known. -/
def byteOffset (p : Position) : Int :=
  if p.source.isEmpty then p.offset else bytes p.before

/-- The position as a message shows it. -/
def text (p : Position) : String :=
  p.origin ++ ":" ++ p.line.repr ++ ":" ++ p.column.repr

/-- Same label and same offset, whatever the sources. -/
def same (p q : Position) : Bool := p.origin == q.origin && p.offset == q.offset

/-- The bytes of a text come on top of those counted before it. -/
theorem foldl_utf8Size (t : Text) (n : Nat) :
    t.foldl (fun n c => n + c.utf8Size) n = n + bytes t := by
  induction t generalizing n with
  | nil => rfl
  | cons c r ih =>
    have h := ih (0 + c.utf8Size)
    rw [Nat.zero_add] at h
    rw [List.foldl_cons, ih, Nat.add_assoc, ← h]
    rw [bytes, List.foldl_cons, Nat.zero_add]

theorem bytes_append (t u : Text) : bytes (t ++ u) = bytes t + bytes u := by
  rw [bytes, List.foldl_append, foldl_utf8Size u]
  rfl

end Position

end SolidScript
