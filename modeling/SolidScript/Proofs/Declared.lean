import SolidScript.Proofs.Fault
import SolidScript.Proofs.Phrase.Subtrees

/-!
# Scripts — the ways in which reading fails

A source is read as a script, or one of two kinds of reports is made of it: of a character that
starts no token, or of what is missed or nested too deep.  The place of the report lies in the source
or at its end.  A tree that the grammar leaves is always read: no step on the way fails, at no tree
in it.

* `declared_parseWith`: what is reported of a source, and that its tree is read all through.
-/

namespace SolidScript

namespace Grammar
variable {source : Text}

/-- A place that a lexer does not get past lies in the source. -/
theorem Edge.le_length {here : Cursor} {p : Nat} (h : Edge source here p) (hin : here.In source) :
    p ≤ source.length := by
  cases h with
  | behind => exact (afterSkip_in hin).1
  | inside _ token stop _ _ =>
    have after := ((At.of_next token).inside hin).1
    rw [(rest_of_next token).2.2.2] at after
    exact Nat.le_of_lt (Nat.lt_of_lt_of_le stop after)

/-- The furthest place that was reached lies in the source. -/
theorem offset_le_of_refused {settings : Settings} {furthest : Furthest}
    (h : judge settings source = .refused furthest) : furthest.offset ≤ source.length := by
  obtain ⟨ks, ms, here, laid, -, -, edge⟩ := edge_of_ends (ends_of_refused h)
  exact edge.le_length ((Reached.laid laid).inside (Cursor.start_in source))

/-- The character that a lexer is stuck at lies in the source. -/
theorem offset_le_of_faultBefore {p : Nat} {bad : Unexpected} :
    ∀ {n : Nat} {here : Cursor}, here.In source → faultBefore p n here = some bad →
      bad.offset ≤ source.length
  | 0, _, _, h => by cases h
  | n + 1, here, hin, h => by
      unfold faultBefore at h
      cases ht : Token.next here with
      | done there => rw [ht] at h; cases h
      | stuck there c =>
        rw [ht] at h
        cases h
        rw [eq_of_next_stuck ht]
        exact (afterSkip_in hin).1
      | token k there =>
        rw [ht] at h
        dsimp only at h
        split at h
        · cases h
        · exact offset_le_of_faultBefore ((At.of_next ht).inside hin) h

end Grammar

namespace Script
open Grammar

/-- What is explained of a source that is refused is a character or what is missed, in the source or
at its end. -/
theorem declared_explain {settings : Settings} {source : Text} {furthest : Furthest}
    (h : judge settings source = .refused furthest) :
    ((explain source furthest).cause.kind = .lexical ∨
      (explain source furthest).cause.kind = .grammatical) ∧
      (explain source furthest).offset ≤ source.length := by
  unfold explain
  split
  · rename_i bad hb
    exact ⟨.inl rfl, offset_le_of_faultBefore (Cursor.start_in source) hb⟩
  · exact ⟨.inr rfl, offset_le_of_refused h⟩

/-- What is reported of a source is a fault of its tokens or of its grammar, at a place in the source
or at its end.  A source that is matched is read, and every step that reads a tree in its tree comes
to something. -/
theorem declared_parseWith (settings : Settings) (source : Text) :
    (∀ f, parseWith settings source = .error f →
      (f.cause.kind = .lexical ∨ f.cause.kind = .grammatical) ∧ f.offset ≤ source.length) ∧
    ∀ tree, judge settings source = .accepted tree →
      (∃ s, OfTree.script? tree = some s ∧ parseWith settings source = .ok s) ∧
        tree.All OfTree.Readable := by
  constructor
  · intro f h
    unfold parseWith at h
    split at h
    · cases h
      exact ⟨.inr rfl, Nat.zero_le _⟩
    · rename_i furthest hj
      cases h
      exact declared_explain hj
    · rename_i tree hj
      obtain ⟨s, hs⟩ := exists_script_of_accepted hj
      rw [hs] at h
      cases h
  · intro tree h
    obtain ⟨s, hs⟩ := exists_script_of_accepted h
    exact ⟨⟨s, hs, by rw [parseWith, h]; simp only [hs]⟩, readable_of_accepted h⟩

/-- The numeral of a source has a value, and a source that breaks off is reported at its end. -/
theorem declared_parseWith_numeral :
    (∃ s, parseWith ⟨60, false⟩ (Text.lit "x=1.5e3;") = .ok s) ∧
      ∃ f, parseWith ⟨60, false⟩ (Text.lit "x=1.5e3") = .error f ∧ f.offset ≤ 7 := by
  constructor
  · have accepted : (match judge ⟨60, false⟩ (Text.lit "x=1.5e3;") with
        | .accepted _ => true
        | _ => false) = true := by decide +kernel
    split at accepted
    · rename_i tree h
      obtain ⟨⟨s, -, hs⟩, -⟩ := (declared_parseWith _ _).2 tree h
      exact ⟨s, hs⟩
    · cases accepted
  · have refused : (match parseWith ⟨60, false⟩ (Text.lit "x=1.5e3") with
        | .error _ => true
        | .ok _ => false) = true := by decide +kernel
    split at refused
    · rename_i f h
      exact ⟨f, h, ((declared_parseWith _ _).1 f h).2⟩
    · cases refused

end Script

end SolidScript
