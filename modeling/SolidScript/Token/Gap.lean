import SolidScript.Text.Cursor
import SolidScript.Token.Lexeme

/-!
# Token — gaps

What lies between tokens and means nothing: blanks and complete comments, in any order.  A comment
that is not closed is no comment, and its first character is a symbol.
-/

namespace SolidScript
open Text (isBlank)

/-- One piece of a gap: a run of blanks or a comment. -/
def gapPiece : Reader := .orElse (.some1 isBlank) Lexeme.comment

/-- The gap at the front of a text, perhaps empty. -/
def gap : Reader := .many gapPiece

theorem splits_gap : gap.Splits := .many (.orElse (.some1 _) Lexeme.splits_comment)

/-- What may stand between tokens, with what follows it: blanks, comments up to the end of their
line, and comments up to their first `*/`. -/
inductive IsGap : Text → Text → Prop where
  | nil (rest : Text) : IsGap [] rest
  | blank {c : Char} {g rest : Text} (h : isBlank c = true) (k : IsGap g rest) :
      IsGap (c :: g) rest
  | line {body g rest : Text} (h : '\n' ∉ body) (e : (g ++ rest).head? ∈ [none, some '\n'])
      (k : IsGap g rest) : IsGap ('/' :: '/' :: (body ++ g)) rest
  | block {body g rest : Text}
      (h : ∀ u v, body ++ ['*', '/'] = u ++ '*' :: '/' :: v → v = [])
      (k : IsGap g rest) : IsGap ('/' :: '*' :: (body ++ '*' :: '/' :: g)) rest

namespace Cursor

/-- The place after the gap. -/
def afterGap (here : Cursor) : Cursor :=
  match here.read gap with
  | some (_, next) => next
  | none           => here

theorem afterGap_in {source : Text} {here : Cursor} (h : here.In source) :
    here.afterGap.In source := by
  unfold afterGap
  split
  · rename_i he
    exact read_in splits_gap h he
  · exact h

end Cursor

end SolidScript
