import SolidScript.Proofs.Matching.Trail
import SolidScript.Script.Parse

/-!
# Scripts — what is remembered does not show

A source is matched with a table of what became of the rules at its places, or without one.  The
verdict is the same: the same tree, or the same furthest place with the same terminals missed there
in the same order; and so is what the source is read as, or what is reported of it.

* `parseWith_remember`: settings that differ in whether they remember read a source alike.
-/

namespace SolidScript.Script
open Grammar

/-- Unless one of the two settings is not deep enough, a source is judged and read the same way with
a table and without; and every source has settings of both kinds that are deep enough. -/
theorem parseWith_remember (source : Text) :
    (∀ depth depth', judge ⟨depth, true⟩ source = .tooDeep ∨
      judge ⟨depth', false⟩ source = .tooDeep ∨
      judge ⟨depth, true⟩ source = judge ⟨depth', false⟩ source ∧
        parseWith ⟨depth, true⟩ source = parseWith ⟨depth', false⟩ source) ∧
    ∃ least, ∀ depth remember, least < depth → judge ⟨depth, remember⟩ source ≠ .tooDeep := by
  constructor
  · intro depth depth'
    have verdicts := judge_eq_judge ⟨depth, true⟩ ⟨depth', false⟩ source
    refine verdicts.imp_right (Or.imp_right fun same => ⟨same, ?_⟩)
    rw [parseWith, parseWith, same]
  · exact ⟨size (.rule .document) (.start source), fun _ _ h => judge_ne_tooDeep h⟩

/-- Two readings of a conditional that breaks off, one of which tries its condition again and
again: both miss the same in the same order. -/
theorem parseWith_remember_conditional :
    parseWith ⟨60, true⟩ (Text.lit "if(a)b") = parseWith ⟨80, false⟩ (Text.lit "if(a)b") := by
  have shallow (settings : Settings) (h : (match judge settings (Text.lit "if(a)b") with
      | .tooDeep => true
      | _ => false) = false) : judge settings (Text.lit "if(a)b") ≠ .tooDeep := fun deep => by
    rw [deep] at h
    cases h
  rcases (parseWith_remember (Text.lit "if(a)b")).1 60 80 with deep | deep | same
  · exact absurd deep (shallow _ (by decide +kernel))
  · exact absurd deep (shallow _ (by decide +kernel))
  · exact same.2

end SolidScript.Script
