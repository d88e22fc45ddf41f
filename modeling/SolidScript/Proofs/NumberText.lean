import SolidScript.Error
import SolidScript.Proofs.Lexical.Closing
import SolidScript.Proofs.Number.Printed
import SolidScript.Proofs.Phrase.Cut
import SolidScript.Proofs.Shape
import SolidScript.Script.Render
import SolidScript.Token.Lexer

/-!
# Numbers — a number written out is read as itself

A number that was read from a numeral is written out as a numeral, perhaps another one.  Where a
bracket, a comma, a colon, a semicolon, a point or a blank comes after it, or nothing does, a lexer
reads what was written as one token and so does the terminal of the grammar; and it is converted to
the number that it was written for, bit for bit.

What is written is never digits alone: it has a point or an exponent.  So a point that follows is
not read as its own.

* `tokenAt_of_begins`: the token at a place, where the text starts with it.
* `read_render`: the numbers of all numerals.
-/

namespace SolidScript

namespace Grammar
open Lexeme (Begins)

/-- A terminal that matches leaves the state as it is. -/
theorem matchTerminal_eq_matched {t : Terminal} {here next : Cursor} {ts : List Tree}
    (h : Run.terminal t here = some (ts, next)) (s : State) :
    matchTerminal t here s = .matched ts next s := by
  obtain ⟨⟨u, m⟩, read, he⟩ := Option.map_eq_some_iff.1 h
  cases he
  simp only [matchTerminal, read]

/-- The numeral that a text starts with is the token there. -/
theorem tokenAt_of_begins {o : Nat} {u r : Text} (h : Begins .number u r) :
    tokenAt ⟨o, u ++ r⟩ = some (⟨.number, u, o⟩, ⟨o + u.length, r⟩) := by
  have stroke : u ≠ ['/'] := by
    rintro rfl
    exact absurd (h.symbol rfl (by decide)) (by decide)
  have skip : afterSkip ⟨o, u ++ r⟩ = ⟨o, u ++ r⟩ :=
    afterSkip_of_gapPiece (gapPiece_of_begins h fun he => absurd he stroke)
  cases h with
  | plain front => rw [tokenAt, skip, front]; rfl
  | useFile _ kind | includeFile _ kind => cases kind

end Grammar

namespace Number
open Grammar
open Lexeme (Begins closers)

/-- What is read of a numeral is a value of single precision. -/
theorem isSingle_of_read {t : Text} {position : Option Position} {v : Double}
    (h : read t position = .ok v) : v.IsSingle := by
  unfold read Numeral.value? at h
  cases hn : Numeral.read? t with
  | none => rw [hn] at h; cases h
  | some n =>
    rw [hn] at h
    exact Except.ok.inj h ▸ n.isSingle_value

/-- A written number is a token before everything that may follow a number. -/
theorem Double.PrintedAs.begins {v : Double} {t r : Text} (h : v.PrintedAs t)
    (follows : ∀ c ∈ r.head?, c ∈ closers) : Begins .number t r := by
  cases r with
  | nil => exact Lexeme.begins_number h.spells
  | cons c r =>
    have before := (Lexeme.begins_number h.spells).closed (by decide) (follows c rfl)
    exact before (fun _ => h.mark) r

/-- The number that a numeral is converted to, written out, is converted to the same number.  Before
what may follow a number, or before nothing, it is read whole: by a lexer as one token, and by the
terminal for numbers. -/
theorem read_render {t : Text} {position : Option Position} {v : Double}
    (numeral : read t position = .ok v) (place : Place) :
    (∀ position', read (Expr.number place v).render position' = .ok v) ∧
    ∀ r : Text, (∀ c ∈ r.head?, c ∈ closers) →
      (∀ l : Lexer, l.here.rest = (Expr.number place v).render ++ r →
        l.next = (.ok (some ⟨.number, (Expr.number place v).render, l.position⟩),
          { l with here := ⟨l.position + (Expr.number place v).render.length, r⟩ })) ∧
      ∀ (here : Cursor) (s : State), here.rest = (Expr.number place v).render ++ r →
        matchTerminal .number here s =
          .matched [.leaf .number here.offset (Expr.number place v).render]
            ⟨here.offset + (Expr.number place v).render.length, r⟩ s := by
  have printed := (isSingle_of_read numeral).printedAs
  rw [show (Expr.number place v).render = v.print from rfl]
  generalize v.print = u at printed
  refine ⟨fun position' => by rw [read, printed.value], fun r follows => ?_⟩
  have token (o : Nat) := tokenAt_of_begins (o := o) (printed.begins follows)
  constructor
  · rintro ⟨source, ⟨o, _⟩⟩ rfl
    have next := next_of_tokenAt (token o) (by simp)
    simp only [Lexer.next, next, Lexer.position]
  · rintro ⟨o, _⟩ s rfl
    have accepts : Terminal.number.Accepts ⟨.number, u, o⟩ := rfl
    exact matchTerminal_eq_matched ((terminal_eq_some_iff rfl).2 ⟨_, token o, accepts, rfl⟩) s

/-- The value of `3.4e38` has more digits and an exponent with a sign.  A member may be taken of
it. -/
theorem read_render_exponent :
    read (Text.lit "3.4e38") none = .ok ⟨0x47eff933c0000000⟩ ∧
      read (Text.lit "3.3999999521443642e+38") none = .ok ⟨0x47eff933c0000000⟩ ∧
      (Lexer.ofSource (Text.lit "3.3999999521443642e+38.x")).next.1 =
        .ok (some ⟨.number, Text.lit "3.3999999521443642e+38", 0⟩) := by
  have value : Numeral.value? (Text.lit "3.4e38") = some ⟨0x47eff933c0000000⟩ := by decide +kernel
  have numeral : read (Text.lit "3.4e38") none = .ok ⟨0x47eff933c0000000⟩ := by rw [read, value]
  have written : (Expr.number none ⟨0x47eff933c0000000⟩).render =
      Text.lit "3.3999999521443642e+38" := by decide +kernel
  have point : ∀ c ∈ (Text.lit ".x").head?, c ∈ closers := by
    intro c hc
    obtain rfl : '.' = c := Option.some.inj hc
    decide
  obtain ⟨again, before⟩ := read_render numeral none
  obtain ⟨lexer, -⟩ := before (Text.lit ".x") point
  rw [written] at again lexer
  have whole : (Lexer.ofSource (Text.lit "3.3999999521443642e+38.x")).here.rest =
      Text.lit "3.3999999521443642e+38" ++ Text.lit ".x" := by decide +kernel
  exact ⟨numeral, again none, by rw [lexer _ whole]; rfl⟩

end Number

end SolidScript
