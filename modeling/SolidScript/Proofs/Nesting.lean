import Mathlib.Order.Nat
import SolidScript.Proofs.Matching.Attempt
import SolidScript.Script.Parse

/-!
# Scripts — constructs that stand too deep inside each other

An attempt that is given up is given up as a whole: it is never taken for a failure after which
the next alternative is tried, for the absence of what may be absent, or for the end of a
repetition, and it leaves nothing in the table.  So with more depth an attempt answers the same as
with less, unless with less it is given up (`attempt_kept`), and the depth decides only whether
there is an answer, not which.

* `parseWith_deeper`: with more depth a source is read as the same script or refused with the same
  report, unless it was reported as nested too deep; and that is reported below one depth and never
  from there on.
-/

namespace SolidScript

namespace Grammar

/-- What goes on after a failure and what after a match; nothing does after giving up. -/
def Reply.next (failed : State → Reply) (matched : List Tree → Cursor → State → Reply) :
    Reply → Reply
  | .failed s           => failed s
  | .tooDeep            => .tooDeep
  | .matched ts there s => matched ts there s

/-- The first reply is given up, or it is the second. -/
def Reply.Kept (r r' : Reply) : Prop := r = .tooDeep ∨ r = r'

/-- An attempt answers what the other one answers, unless it is given up. -/
def Attempt.Kept (a a' : Attempt) : Prop :=
  ∀ p here s, (a p here s).Kept (a' p here s)

namespace Reply.Kept

theorem refl (r : Reply) : r.Kept r := .inr rfl

theorem after {r r' : Reply} {ts : List Tree} : r.Kept r' → (r.after ts).Kept (r'.after ts)
  | .inl deep => .inl (by rw [deep]; rfl)
  | .inr same => .inr (by rw [same])

theorem next {r r' : Reply} {failed failed' : State → Reply}
    {matched matched' : List Tree → Cursor → State → Reply} (h : r.Kept r')
    (hf : ∀ s, (failed s).Kept (failed' s))
    (hm : ∀ ts there s, (matched ts there s).Kept (matched' ts there s)) :
    (r.next failed matched).Kept (r'.next failed' matched') := by
  rcases h with rfl | rfl
  · exact .inl rfl
  · cases r with
    | failed s => exact hf s
    | tooDeep => exact .refl _
    | matched ts there s => exact hm ts there s

end Reply.Kept

/-! ### Productions -/

namespace Attempt.Kept
variable {a a' : Attempt}

theorem inOrder (h : a.Kept a') : ∀ (ps : List Piece) (here : Cursor) (s : State),
    (Grammar.inOrder a ps here s).Kept (Grammar.inOrder a' ps here s)
  | [], _, _ => .refl _
  | p :: ps, here, s =>
      (h p here s).next (fun _ => .refl _) fun _ there s' => (h.inOrder ps there s').after

theorem firstOf (h : a.Kept a') (here : Cursor) : ∀ (ps : List Piece) (s : State),
    (Grammar.firstOf a ps here s).Kept (Grammar.firstOf a' ps here s)
  | [], _ => .refl _
  | p :: ps, s => (h p here s).next (fun s' => h.firstOf here ps s') fun _ _ _ => .refl _

theorem again (h : a.Kept a') (ps : List Piece) :
    ∀ (budget : Text) (here : Cursor) (s : State),
      (Grammar.again a ps budget here s).Kept (Grammar.again a' ps budget here s)
  | budget, here, s => by
      unfold Grammar.again
      refine (h.inOrder ps here s).next (fun _ => .refl _) fun ts there s' => ?_
      cases budget with
      | nil => exact .refl _
      | cons c budget => exact (h.again ps budget there s').after

/-- A production whose pieces are attempted. -/
theorem expand (h : a.Kept a') : ∀ (q : Production) (here : Cursor) (s : State),
    (Grammar.expand a q here s).Kept (Grammar.expand a' q here s)
  | .sequence ps, here, s => h.inOrder ps here s
  | .choice ps, here, s => h.firstOf here ps s
  | .maybe p, here, s => (h p here s).next (fun _ => .refl _) fun _ _ _ => .refl _
  | .many p, here, s => h.again [p] here.rest here s
  | .chain p sep, here, s =>
      (h p here s).next (fun _ => .refl _) fun _ there s' =>
        (h.again (sep.toList ++ [p]) there.rest there s').after
  -- Looking ahead enters no piece.
  | .notAhead _, _, _ => .refl _

theorem matchRule (h : a.Kept a') (remember : Bool) (r : Rule) (here : Cursor) (s : State) :
    (Grammar.matchRule a remember r here s).Kept (Grammar.matchRule a' remember r here s) := by
  unfold Grammar.matchRule
  rcases h.expand r.production here s with deep | same
  · rw [deep]
    exact .inl rfl
  · rw [same]
    exact .refl _

end Attempt.Kept

/-! ### Attempts and verdicts -/

/-- With more depth an attempt answers the same, and leaves the same record and the same table,
unless it is given up with less. -/
theorem attempt_kept (remember : Bool) : ∀ {shallow deep : Nat}, shallow ≤ deep →
    Attempt.Kept (attempt remember shallow) (attempt remember deep)
  | 0, _, _, _, _, _ => .inl rfl
  | shallow + 1, deep + 1, _, .term t, here, s => .refl (matchTerminal t here s)
  | shallow + 1, deep + 1, le, .rule r, here, s => by
      have below := attempt_kept remember (Nat.le_of_succ_le_succ le)
      unfold attempt
      -- What the table knows is answered at any depth.
      cases s.table.find? r here.offset with
      | some k => cases k <;> exact .refl _
      | none => exact below.matchRule remember r here s

theorem judge_deeper (remember : Bool) (source : Text) {shallow deep : Nat} (le : shallow ≤ deep) :
    judge ⟨shallow, remember⟩ source = .tooDeep ∨
      judge ⟨deep, remember⟩ source = judge ⟨shallow, remember⟩ source := by
  unfold judge
  rcases attempt_kept remember le (.rule .document) (.start source) (.start source) with
    given | same
  · rw [given]
    exact .inl rfl
  · rw [same]
    exact .inr rfl

end Grammar

namespace Script
open Grammar

/-- Nothing but giving up is reported as nested too deep. -/
theorem parseWith_eq_tooDeep_iff {settings : Settings} {source : Text} :
    parseWith settings source = .error ⟨.tooDeep, 0⟩ ↔ judge settings source = .tooDeep := by
  unfold parseWith
  cases judge settings source with
  | tooDeep => simp
  | refused furthest =>
    -- What refuses a source is a character or a place where something was missed.
    unfold explain
    cases hf : faultBefore furthest.offset (source.length + 1) (.start source) <;> simp [hf]
  | accepted tree =>
    cases hs : OfTree.script? tree <;> simp [hs]

/-- With more depth a source is read alike, unless with less it is reported as nested too deep, at
its start and with nothing that was expected; and there is a least depth from which on it is never
reported as that. -/
theorem parseWith_deeper (remember : Bool) (source : Text) :
    (∀ shallow deep, shallow ≤ deep →
      (∃ failure, parseWith ⟨shallow, remember⟩ source = .error failure ∧
        ∀ origin, failure.report origin source =
          ⟨.grammatical, "nesting too deep", ⟨origin, 0, source⟩, []⟩) ∨
      parseWith ⟨deep, remember⟩ source = parseWith ⟨shallow, remember⟩ source) ∧
    ∃ least, ∀ depth,
      parseWith ⟨depth, remember⟩ source = .error ⟨.tooDeep, 0⟩ ↔ depth < least := by
  constructor
  · intro shallow deep le
    rcases judge_deeper remember source le with given | same
    · exact .inl ⟨⟨.tooDeep, 0⟩, parseWith_eq_tooDeep_iff.2 given, fun _ => rfl⟩
    · right
      rw [parseWith, parseWith, same]
  · have enough : ∃ depth, judge ⟨depth, remember⟩ source ≠ .tooDeep :=
      ⟨size (.rule .document) (.start source) + 1, judge_ne_tooDeep (Nat.lt_succ_self _)⟩
    -- The least depth with an answer; the depths below it have none, those above it the same.
    classical
    refine ⟨Nat.find enough, fun depth => ?_⟩
    rw [parseWith_eq_tooDeep_iff, Nat.lt_find_iff]
    constructor
    · intro given below le
      rcases judge_deeper remember source le with given' | same
      · exact not_not_intro given'
      · exact not_not_intro (same.symm.trans given)
    · intro given
      exact not_not.1 (given depth (Nat.le_refl _))

/-- An assignment with parentheses: one piece less than it takes is reported, and what is read with
just enough is what is read with the depth that sources are read with. -/
theorem parseWith_deeper_parenthesized :
    parseWith ⟨29, true⟩ (Text.lit "a=(b);") = .error ⟨.tooDeep, 0⟩ ∧
      parseWith settings (Text.lit "a=(b);") = parseWith ⟨30, true⟩ (Text.lit "a=(b);") := by
  have given : parseWith ⟨29, true⟩ (Text.lit "a=(b);") = .error ⟨.tooDeep, 0⟩ := by
    refine parseWith_eq_tooDeep_iff.2 ?_
    have deep : (match judge ⟨29, true⟩ (Text.lit "a=(b);") with
      | .tooDeep => true
      | _ => false) = true := by decide +kernel
    split at deep
    · assumption
    · cases deep
  have read : (match parseWith ⟨30, true⟩ (Text.lit "a=(b);") with
      | .ok _ => true
      | .error _ => false) = true := by decide +kernel
  rcases (parseWith_deeper true (Text.lit "a=(b);")).1 30 488 (by decide) with
    ⟨failure, refused, -⟩ | same
  · rw [refused] at read
    cases read
  · exact ⟨given, same⟩

end Script

end SolidScript
