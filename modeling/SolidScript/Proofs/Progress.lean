import Mathlib.Logic.Relation
import SolidScript.Proofs.Matching.Halting
import SolidScript.Proofs.Matching.Trail

/-!
# Grammar — progress

Every rule takes a character where it matches, but for the document, which may be empty, and the
rules for what may be absent, for what stands any number of times and for what is not ahead
(`Piece.advances`).  Whatever is repeated takes one, separators as well, so a repetition ends; and a
rule that is entered from itself is entered at a later place, so the rules that are entered inside
each other come to an end.  No limit on depth is needed for either.

The measure is that of the outcomes: the characters left, and at one place the rank of the rule
(`Enters.below`).

* `progress`: rules and repetitions take characters, no rule comes back to itself at its place, and
  the matching of every piece at every place of a source comes to its end.
-/

namespace SolidScript

/-- The production may match nothing by what it is: a part that may be absent, pieces any number of
times, or a look ahead. -/
def Production.mayBeEmpty : Production → Bool
  | maybe _ | many _ | notAhead _ => true
  | sequence _ | choice _ | chain _ _ => false

/-- What is matched again and again: the pieces, and the separators between two. -/
def Production.repeated : Production → List Piece
  | many p            => [p]
  | chain p separator => separator.toList ++ [p]
  | sequence _ | choice _ | maybe _ | notAhead _ => []

/-- The terminals but the end of the input, and the rules but the document and those for what may be
absent, for pieces any number of times, and for looking ahead. -/
def Piece.advances : Piece → Bool
  | term t => t ≠ .endOfInput
  | rule r => r ≠ .document && !r.production.mayBeEmpty

/-- What advances is not nullable. -/
theorem Piece.nullable_of_advances {p : Piece} (h : p.advances = true) : p.nullable = false := by
  cases p with
  | term t => simpa [advances, nullable] using h
  | rule r => revert h; cases r <;> decide

/-- Whatever is repeated advances. -/
theorem Rule.advances_of_repeated (r : Rule) : ∀ p ∈ r.production.repeated, p.advances = true := by
  cases r <;> decide

namespace Grammar

/-! ### Characters taken -/

/-- Fewer characters left is a greater offset. -/
theorem offset_lt_of_length {source : Text} {here next : Cursor} (hin : here.In source)
    (hin' : next.In source) (h : next.rest.length < here.rest.length) :
    here.offset < next.offset := by
  rw [hin.2, hin'.2, List.length_drop, List.length_drop] at h
  omega

theorem offset_lt_of_read {reader : Reader} (ht : reader.Takes) {here next : Cursor} {u : Text}
    (h : here.read reader = some (u, next)) : here.offset < next.offset := by
  obtain ⟨v, hv, he⟩ := Option.map_eq_some_iff.1 h
  cases he
  exact Nat.lt_add_of_pos_right (List.length_pos_iff.2 (ht.ne_nil hv))

/-- A comment takes a character. -/
theorem offset_lt_of_comment {here next : Cursor} {u : Text}
    (h : here.read Lexeme.lineComment = some (u, next) ∨
      here.read Lexeme.blockComment = some (u, next)) : here.offset < next.offset := by
  rcases h with h | h
  · exact offset_lt_of_read (.andThen_left (.word (by decide))) h
  · exact offset_lt_of_read (.andThen_left (.word (by decide))) h

/-- An attempt at what advances takes a character where it matches. -/
theorem offset_lt_of_attempt {source : Text} {remember : Bool} {depth : Nat} {p : Piece}
    {here next : Cursor} {s s' : State} {ts : List Tree} (hin : here.In source)
    (ht : s.table.Truthful source) (hp : p.advances = true)
    (h : attempt remember depth p here s = .matched ts next s') : here.offset < next.offset := by
  have agrees := attempt_agrees remember depth p here s hin ht
  rw [h] at agrees
  have shrinks := outcome_shrinks _ _ _ _ agrees.1
  exact offset_lt_of_length hin (outcome_in hin agrees.1)
    (shrinks.2 (Piece.nullable_of_advances hp))

/-! ### Rules entered inside each other -/

theorem Repeats.length_le {ps : List Piece} {here next : Cursor} {ts : List Tree}
    (h : Repeats ps here ts next) : next.rest.length ≤ here.rest.length := by
  induction h with
  | nil => exact Nat.le_refl _
  | cons h _ ih => exact Nat.le_trans ih (outcome_shrinks.inOrder h).1

theorem Repeats.inside {source : Text} {ps : List Piece} {here next : Cursor} {ts : List Tree}
    (h : Repeats ps here ts next) (hin : here.In source) : next.In source := by
  induction h with
  | nil => exact hin
  | cons h _ ih => exact ih (inOrder_in hin h)

/-- A piece is below the bound after those before it. -/
theorem below_after {bound : Nat} {here : Cursor} {p : Piece} {after : List Piece} :
    ∀ {before : List Piece} {there next : Cursor} {us : List Tree},
      there.rest.length < here.rest.length ∨
        there.rest.length ≤ here.rest.length ∧ Piece.leads bound (before ++ p :: after) = true →
      outcome.inOrder before there = some (us, next) → Below bound here p next
  | [], _, _, _, hb, h => by
      cases h
      exact below_head hb
  | q :: before, there, next, us, hb, h => by
      obtain ⟨vs, mid, ws, hq, h, -⟩ := Run.inOrder_cons_eq_some_iff.1 h
      exact below_after (below_tail hb hq) h

/-- A piece that a rule has tried is below the rule: a character has been taken, or the piece has a
lower rank. -/
theorem Enters.below {r : Rule} {p : Piece} {here there : Cursor}
    (h : Enters r.production here p there) : Below r.rank here p there := by
  have leads := r.leads_production
  generalize r.production = q at h leads
  cases h with
  | sequence h => exact below_after (.inr ⟨Nat.le_refl _, leads⟩) h
  | choice h =>
    simp only [Production.leads, List.all_eq_true, decide_eq_true_eq] at leads
    exact .inr ⟨Nat.le_refl _, leads p (by simp)⟩
  | maybe =>
    simp only [Production.leads, decide_eq_true_eq] at leads
    exact .inr ⟨Nat.le_refl _, leads⟩
  | many h =>
    simp only [Production.leads, Bool.and_eq_true, decide_eq_true_eq] at leads
    exact .inr ⟨h.length_le, leads.1⟩
  | chain =>
    simp only [Production.leads, Bool.and_eq_true, decide_eq_true_eq] at leads
    exact .inr ⟨Nat.le_refl _, leads.1⟩
  | link h k _ m =>
    -- The first link has taken a character, and nothing behind it gives one back.
    simp only [Production.leads, Bool.and_eq_true, Bool.not_eq_true'] at leads
    have link := (outcome_shrinks _ _ _ _ h).2 leads.2
    exact .inl (Nat.lt_of_le_of_lt
      (Nat.le_trans (outcome_shrinks.inOrder m).1 k.length_le) link)

theorem Enters.inside {source : Text} {q : Production} {p : Piece} {here there : Cursor}
    (h : Enters q here p there) (hin : here.In source) : there.In source := by
  cases h with
  | sequence h => exact inOrder_in hin h
  | choice | maybe | chain => exact hin
  | many h => exact h.inside hin
  | link h k _ m => exact inOrder_in (k.inside (outcome_in hin h)) m

/-- The first rule, tried at the first place, has the second rule tried at the second place. -/
def Entry (a b : Rule × Cursor) : Prop := Enters a.1.production a.2 (.rule b.1) b.2

theorem size_lt_of_entries {a b : Rule × Cursor} (h : Relation.TransGen Entry a b) :
    size (.rule b.1) b.2 < size (.rule a.1) a.2 := by
  induction h with
  | single h => exact size_lt_of_below (Enters.below h)
  | tail _ h ih => exact Nat.lt_trans (size_lt_of_below (Enters.below h)) ih

theorem inside_of_entries {source : Text} {a b : Rule × Cursor} (h : Relation.TransGen Entry a b)
    (hin : a.2.In source) : b.2.In source := by
  induction h with
  | single h => exact Enters.inside h hin
  | tail _ h ih => exact Enters.inside h ih

/-- A rule that comes back to itself does so at a later place. -/
theorem offset_lt_of_entries {source : Text} {r : Rule} {here there : Cursor} (hin : here.In source)
    (h : Relation.TransGen Entry (r, here) (r, there)) : here.offset < there.offset := by
  have smaller := size_lt_of_entries h
  refine offset_lt_of_length hin (inside_of_entries h hin) ?_
  dsimp only [size] at smaller
  omega

/-! ### Progress -/

/-- The grammar makes progress on every source.  A comment takes a character, and so does every
match of a piece that advances; whatever stands under a repetition advances; a rule that is entered
from itself is entered at a later place; and the matching of every piece at every place comes to its
end without any limit, with one reply, which is what the outcome says and what every attempt that is
deep enough answers.  All this is so with a table that is true of the source, and a match starts
with such a table. -/
theorem progress (remember : Bool) (source : Text) :
    (State.start source).table.Truthful source ∧
    (∀ (here next : Cursor) (u : Text), here.read Lexeme.lineComment = some (u, next) ∨
      here.read Lexeme.blockComment = some (u, next) → here.offset < next.offset) ∧
    (∀ (depth : Nat) (p : Piece) (here next : Cursor) (s s' : State) (ts : List Tree),
      here.In source → s.table.Truthful source → p.advances = true →
      attempt remember depth p here s = .matched ts next s' → here.offset < next.offset) ∧
    (∀ r : Rule, ∀ p ∈ r.production.repeated, p.advances = true) ∧
    (∀ (r : Rule) (here there : Cursor), here.In source →
      Relation.TransGen Entry (r, here) (r, there) → here.offset < there.offset) ∧
    ∀ (p : Piece) (here : Cursor) (s : State), here.In source → s.table.Truthful source →
      ∃ reply, Halts remember (.piece p) here s reply ∧
        (∀ other, Halts remember (.piece p) here s other → other = reply) ∧
        reply.Agrees source (outcome p here) False ∧
        ∃ enough, ∀ depth, enough ≤ depth → attempt remember depth p here s = reply := by
  refine ⟨Table.truthful_empty source, fun _ _ _ => offset_lt_of_comment,
    fun depth p here next s s' ts hin ht hp h => offset_lt_of_attempt hin ht hp h,
    Rule.advances_of_repeated, fun r here there hin h => offset_lt_of_entries hin h,
    fun p here s hin ht => ?_⟩
  obtain ⟨reply, halts, agrees, deep⟩ := exists_halts remember p hin ht
  exact ⟨reply, halts, fun other h => h.unique halts, agrees, size p here + 1, deep⟩

/-- Two signs: the first one takes a character, behind it the signs come to themselves again, and
the source, which is no document, is found to be none. -/
theorem progress_signs :
    (∃ ts next s', attempt true 200 (.rule .unaryLevel) (.start (Text.lit "--a"))
        (.start (Text.lit "--a")) = .matched ts next s' ∧ 0 < next.offset) ∧
      (Relation.TransGen Entry (.unaryLevel, .start (Text.lit "--a"))
          (.unaryLevel, ⟨1, Text.lit "-a"⟩) ∧
        (Cursor.start (Text.lit "--a")).offset < 1) ∧
      ∃ s, Halts true (.piece (.rule .document)) (.start (Text.lit "--a"))
        (.start (Text.lit "--a")) (.failed s) := by
  obtain ⟨truthful, -, takes, -, entries, halts⟩ := progress true (Text.lit "--a")
  have inside := Cursor.start_in (Text.lit "--a")
  have signs : Relation.TransGen Entry (.unaryLevel, .start (Text.lit "--a"))
      (.unaryLevel, ⟨1, Text.lit "-a"⟩) := by
    have choice : Entry (.unaryLevel, .start (Text.lit "--a"))
        (.signed, .start (Text.lit "--a")) := @Enters.choice _ [] [.rule .access] _ (by simp)
    have sequence : Entry (.signed, .start (Text.lit "--a")) (.unaryLevel, ⟨1, Text.lit "-a"⟩) :=
      @Enters.sequence _ _ [.term .unary] [] _ [.leaf .unary 0 ['-']] rfl
    exact .head choice (.single sequence)
  refine ⟨?_, ⟨signs, entries _ _ _ inside signs⟩, ?_⟩
  · have read : (outcome (.rule .unaryLevel) (.start (Text.lit "--a"))).isSome = true := by
      decide +kernel
    have agrees := attempt_agrees true 200 (.rule .unaryLevel) _ _ inside truthful
    cases hr : attempt true 200 (.rule .unaryLevel) (.start (Text.lit "--a"))
      (.start (Text.lit "--a")) with
    | matched ts next s' =>
      exact ⟨ts, next, s', rfl, takes 200 _ _ _ _ _ _ inside truthful (by decide) hr⟩
    | failed s' =>
      rw [hr] at agrees
      rw [agrees.1] at read
      cases read
    | tooDeep =>
      rw [hr] at agrees
      have shallow : 200 ≤ size (.rule .unaryLevel) (.start (Text.lit "--a")) := agrees
      exact absurd shallow (by decide)
  · have refused : (outcome (.rule .document) (.start (Text.lit "--a"))).isSome = false := by
      decide +kernel
    obtain ⟨reply, ends, -, agrees, -⟩ := halts (.rule .document) _ _ inside truthful
    cases reply with
    | matched ts next s =>
      rw [agrees.1] at refused
      cases refused
    | failed s => exact ⟨s, ends⟩
    | tooDeep => exact agrees.elim

end Grammar

end SolidScript
