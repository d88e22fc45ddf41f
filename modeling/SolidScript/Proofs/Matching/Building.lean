import SolidScript.Proofs.Matching.Outcome

/-!
# Matching — matches put together

How the outcome of a rule follows from those of its pieces: pieces in order one after the other, a
choice from the alternative that matches and the failure of those before it, a repetition from its
rounds and the failure of the next one.
-/

namespace SolidScript.Grammar
open SolidScript.Tree (gather)

variable {here there next : Cursor} {ts us vs : List Tree} {p : Piece} {ps : List Piece} {r : Rule}

/-! ### Pieces in order -/

theorem inOrder_nil (here : Cursor) : outcome.inOrder [] here = some ([], here) := rfl

theorem inOrder_cons (h : outcome p here = some (ts, there))
    (k : outcome.inOrder ps there = some (us, next)) :
    outcome.inOrder (p :: ps) here = some (ts ++ us, next) :=
  Run.inOrder_cons_eq_some_iff.2 ⟨ts, there, us, h, k, rfl⟩

/-- Pieces in order fail where the first does. -/
theorem inOrder_of_none (h : outcome p here = none) : outcome.inOrder (p :: ps) here = none := by
  rw [Run.inOrder, h]

/-- Pieces in order fail where the others fail after the first. -/
theorem inOrder_of_some_none (h : outcome p here = some (ts, there))
    (k : outcome.inOrder ps there = none) : outcome.inOrder (p :: ps) here = none := by
  rw [Run.inOrder, h]
  simp [k, Outcome.after]

theorem sequence_of_inOrder (hr : r.production = .sequence ps)
    (h : outcome.inOrder ps here = some (ts, next)) :
    outcome (.rule r) here = some (gather r ts, next) :=
  (outcome_sequence_eq_some_iff hr).2 ⟨ts, h, rfl⟩

theorem sequence_of_none (hr : r.production = .sequence ps) (h : outcome.inOrder ps here = none) :
    outcome (.rule r) here = none := (outcome_sequence_eq_none_iff hr).2 h

/-! ### Choices -/

/-- The alternative that matches is the choice if those before it fail. -/
theorem choice_of_split (qs : List Piece) (hr : r.production = .choice (qs ++ p :: ps))
    (before : ∀ q ∈ qs, outcome q here = none) (h : outcome p here = some (ts, next)) :
    outcome (.rule r) here = some (gather r ts, next) := by
  refine (outcome_choice_eq_some_iff hr).2 ⟨ts, ?_, rfl⟩
  clear hr
  induction qs with
  | nil => rw [List.nil_append, Run.firstOf, h]
  | cons q qs ih =>
    rw [List.cons_append, Run.firstOf, before q List.mem_cons_self]
    exact ih fun q hq => before q (.tail _ hq)

/-- A piece or nothing is the piece where it matches. -/
theorem maybe_of_some (hr : r.production = .maybe p) (h : outcome p here = some (ts, next)) :
    outcome (.rule r) here = some (gather r ts, next) := by
  rw [outcome_rule, hr]
  simp [Run.expand, h]

theorem maybe_of_none (hr : r.production = .maybe p) (h : outcome p here = none) :
    outcome (.rule r) here = some (gather r [], here) := by
  rw [outcome_rule, hr]
  simp [Run.expand, h]

/-! ### Repetitions -/

/-- The pieces match again and again up to the place, perhaps not for the last time. -/
inductive Repeats (ps : List Piece) : Cursor → List Tree → Cursor → Prop where
  | nil (here : Cursor) : Repeats ps here [] here
  | cons {here there next : Cursor} {ts us : List Tree}
      (h : outcome.inOrder ps here = some (ts, there)) (k : Repeats ps there us next) :
      Repeats ps here (ts ++ us) next

theorem Repeats.append (h : Repeats ps here ts there) (k : Repeats ps there us next) :
    Repeats ps here (ts ++ us) next := by
  induction h with
  | nil => exact k
  | cons h _ ih => rw [List.append_assoc]; exact .cons h (ih k)

theorem Repeats.one (h : outcome.inOrder ps here = some (ts, next)) : Repeats ps here ts next := by
  have := Repeats.cons h (.nil next)
  rwa [List.append_nil] at this

/-- A repetition goes on as long as its pieces match. -/
theorem Repeats.loop (hps : ps.all Piece.nullable = false) (h : Repeats ps here ts next)
    (stop : outcome.inOrder ps next = none) : outcome.loop ps here = (ts, next) := by
  induction h with
  | nil => exact loop_of_none stop
  | cons h _ ih => rw [loop_of_some hps h, ih stop]

theorem many_of_repeats (hr : r.production = .many p) (hp : p.nullable = false)
    (h : Repeats [p] here ts next) (stop : outcome p next = none) :
    outcome (.rule r) here = some (gather r ts, next) := by
  have loop := h.loop (by simpa using hp) (inOrder_of_none stop)
  rw [outcome_rule, hr]
  simp [Run.expand, loop]

theorem chain_of_repeats {s : Option Piece} (hr : r.production = .chain p s)
    (hp : p.nullable = false) (h : outcome p here = some (ts, there))
    (k : Repeats (s.toList ++ [p]) there us next)
    (stop : outcome.inOrder (s.toList ++ [p]) next = none) :
    outcome (.rule r) here = some (gather r (ts ++ us), next) := by
  have loop := k.loop (by simp [hp]) stop
  rw [outcome_rule, hr]
  simp [Run.expand, h, loop]

end SolidScript.Grammar
