import SolidScript.Proofs.Matching.Attempt
import SolidScript.Proofs.Phrase.Deriving
import SolidScript.Script.Parse

/-!
# Phrase — the tokens of a source

A source that is read has tokens that spell what it is read as.  They are the tokens of the source,
unless one of them is a name that a reference to a file starts with: `Reads` and `Laid` differ in
nothing else.

* `says_of_parseWith`: what a source is read as is spelled by tokens that lie in it to its end.
* `reads_of_laid`, `laid_of_reads`: tokens that lie in a source to its end are its tokens.
-/

namespace SolidScript.Grammar
open OfTree

/-- The tokens lie in a source from the place on, up to its end. -/
def LaidToEnd (here : Cursor) (ks : List Token) : Prop :=
  ∃ next, Laid here ks next ∧ (afterSkip next).rest = []

theorem laidToEnd_cons_iff {here : Cursor} {k : Token} {ks : List Token} :
    LaidToEnd here (k :: ks) ↔ ∃ there, At here k there ∧ LaidToEnd there ks := by
  simp only [LaidToEnd, laid_cons_iff]
  constructor
  · rintro ⟨next, ⟨there, h, hs⟩, he⟩; exact ⟨there, h, next, hs, he⟩
  · rintro ⟨there, h, next, hs, he⟩; exact ⟨next, ⟨there, h, hs⟩, he⟩

theorem laid_of_reads {here : Cursor} {ks : List Token} (h : Reads here ks) : LaidToEnd here ks := by
  induction h with
  | done h => exact ⟨_, .nil _, (next_eq_done_iff.1 h).1⟩
  | token h _ ih => exact laidToEnd_cons_iff.2 ⟨_, .of_next h, ih⟩

/-- Where no name is the word of a reference, tokens that lie in a source are its tokens. -/
theorem reads_of_laid {here : Cursor} {ks : List Token} (h : LaidToEnd here ks)
    (hk : ∀ k ∈ ks, k.kind = .identifier → k.text ∉ Lexeme.referenceWords) : Reads here ks := by
  obtain ⟨next, h, he⟩ := h
  induction h with
  | nil => exact .done (next_eq_done_iff.2 ⟨he, rfl⟩)
  | cons h _ ih =>
    exact .token (h.next (hk _ List.mem_cons_self)) (ih (fun l hl => hk l (.tail _ hl)) he)

/-- A document is its statements, with nothing after them. -/
theorem document_eq_some_iff {here next : Cursor} {ts : List Tree} :
    outcome (.rule .document) here = some (ts, next) ↔
      ∃ us there, outcome (.rule .statements) here = some (us, there) ∧
        (afterSkip there).rest = [] ∧ next = afterSkip there ∧
        ts = Tree.gather .document (us ++ [.leaf .endOfInput (afterSkip there).offset []]) := by
  have done {there mid : Cursor} {vs : List Tree} :
      Run.terminal .endOfInput there = some (vs, mid) ↔
        (afterSkip there).rest = [] ∧ mid = afterSkip there ∧
          vs = [.leaf .endOfInput (afterSkip there).offset []] := by
    unfold Run.terminal
    generalize afterSkip there = last
    obtain ⟨o, r⟩ := last
    cases r <;> simp [Cursor.read, Terminal.reader, Terminal.endReader, eq_comm, and_comm]
  rw [outcome_sequence_eq_some_iff rfl]
  constructor
  · rintro ⟨vs, h, rfl⟩
    obtain ⟨us, there, ws, hs, hw, rfl⟩ := Run.inOrder_cons_eq_some_iff.1 h
    rw [Run.inOrder_singleton] at hw
    obtain ⟨he, rfl, rfl⟩ := done.1 hw
    exact ⟨us, there, hs, he, rfl, rfl⟩
  · rintro ⟨us, there, hs, he, rfl, rfl⟩
    refine ⟨_, Run.inOrder_cons_eq_some_iff.2 ⟨us, there, _, hs, ?_, rfl⟩, rfl⟩
    rw [Run.inOrder_singleton]
    exact done.2 ⟨he, rfl, rfl⟩

/-- A script is what the statements of its source are read as. -/
theorem parseWith_of_statements (settings : Settings) {source : Text} {p : Option Nat}
    {us : List Tree} {s : Script} {there : Cursor}
    (h : outcome (.rule .statements) (.start source) = some ([.node .statements p us], there))
    (hs : statements? us = some s) (he : (afterSkip there).rest = []) :
    Script.parseWith settings source = .ok s ∨
      judge settings source = .tooDeep ∧
        Script.parseWith settings source = .error ⟨.tooDeep, 0⟩ := by
  have outcome := document_eq_some_iff.2 ⟨_, _, h, he, rfl, rfl⟩
  unfold Script.parseWith
  rcases judge_of_outcome settings outcome with hj | hj <;> rw [hj]
  · simp [script?, hs]
  · exact .inr ⟨rfl, rfl⟩

/-- What a source is read as its statements are read as. -/
theorem statements_of_parseWith {settings : Settings} {source : Text} {s : Script}
    (h : Script.parseWith settings source = .ok s) :
    ∃ p us there, outcome (.rule .statements) (.start source) =
      some ([.node .statements p us], there) ∧ statements? us = some s ∧
        (afterSkip there).rest = [] := by
  unfold Script.parseWith at h
  split at h
  · cases h
  · cases h
  · rename_i tree hj
    split at h
    · rename_i s' hs
      cases h
      obtain ⟨next, ho⟩ := judge_eq_accepted hj
      obtain ⟨us, there, hm, he, -, ht⟩ := document_eq_some_iff.1 ho
      obtain ⟨-, -, -, p, vs, ss, rfl, -, -⟩ := outcome_means (by decide) hm
      cases ht
      exact ⟨p, vs, there, hm, hs, he⟩
    · cases h

/-- Tokens that spell a script lie in the source that it is read from, and make up a document. -/
theorem says_of_parseWith {settings : Settings} {source : Text} {s : Script}
    (h : Script.parseWith settings source = .ok s) :
    ∃ ks, LaidToEnd (.start source) ks ∧ Says (.script s) ks ∧ IsDocument ks := by
  obtain ⟨p, us, there, hm, hs, he⟩ := statements_of_parseWith h
  obtain ⟨ks, hl, ⟨-, q, vs, ss, ht, hr, said⟩, hd⟩ := outcome_derives (by decide) hm
  cases ht
  rw [hs] at hr
  cases hr
  exact ⟨ks, ⟨there, hl, he⟩, said, isDocument_iff.2 hd⟩

end SolidScript.Grammar

namespace SolidScript.Script

/-- Answers have no decidable equality; that one is a copy of a name shows in its shape. -/
theorem eq_ok_copy {r : Except Failure Script} {x y : Char}
    (h : (match r with
      | .ok [.assignment (some 0) [a] (.variable (some 2) [b])] => a == x && b == y
      | _ => false) = true) :
    r = .ok [.assignment (some 0) [x] (.variable (some 2) [y])] := by
  split at h
  · obtain ⟨rfl, rfl⟩ := by simpa using h
    rfl
  · cases h

end SolidScript.Script
