/-!
# Text

A text is the list of its characters.  Every offset in this library counts characters, and every
rule about a text is a recursion on the list, so a rule and its proof have the same shape.

* `Text.lit`: the text a string literal spells.
* `Text.string`: a text as a string, for messages.
* `Text.joined`: texts with a separator between neighbours.
-/

namespace SolidScript

/-- The characters of a source, a name or a lexeme, in order. -/
abbrev Text := List Char

namespace Text

/-- The text a string spells. -/
abbrev lit (s : String) : Text := s.toList

/-- A text as a string. -/
abbrev string (t : Text) : String := String.ofList t

/-- The texts in order, with `separator` between neighbours. -/
def joined (separator : Text) : List Text → Text
  | []          => []
  | [t]         => t
  | t :: u :: r => t ++ separator ++ joined separator (u :: r)

/-- `c` stands in one of the ranges, ends included. -/
def within (ranges : List (Nat × Nat)) (c : Char) : Bool :=
  ranges.any fun range => range.1 ≤ c.toNat && c.toNat ≤ range.2

end Text

end SolidScript
