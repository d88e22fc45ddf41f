import SolidScript.Proofs.Lexical.Gap
import SolidScript.Proofs.Nesting
import SolidScript.Proofs.Matching.Tables

/-!
# Matching — without limits

What there is to match at a place, and what it comes to, as a relation: no limit is set on how deep
pieces may stand inside each other, a repetition ends where its pieces fail and nowhere else, and
comments are skipped until none is ahead.  A match that never ended would have no derivation, so
`Halts work here s reply` says that the matching of `work` comes to its end, with this reply.

* `Halts.unique`: there is at most one reply.
* `attempt_halts`: the reply of an attempt that is not given up is the one without limits.
* `exists_halts`: there is a reply, and every attempt that is deep enough answers it.
-/

namespace SolidScript.Grammar
open Text (isBlank)

/-! ### Gaps -/

/-- Comments, each with the blanks after it, until none is ahead. -/
inductive Comments : Cursor → Cursor → Prop where
  | done {here : Cursor} (h : here.read commentAndBlanks = none) : Comments here here
  | more {here there next : Cursor} {u : Text}
      (h : here.read commentAndBlanks = some (u, there)) (k : Comments there next) :
      Comments here next

/-- Blanks, then comments. -/
inductive Skips (here next : Cursor) : Prop where
  | blanks {there : Cursor} {u : Text} (h : here.read (.all isBlank) = some (u, there))
      (k : Comments there next)

theorem Comments.unique {here next next' : Cursor} (h : Comments here next)
    (k : Comments here next') : next = next' := by
  induction h with
  | done h =>
    cases k with
    | done => rfl
    | more h' => cases h.symm.trans h'
  | more h _ ih =>
    cases k with
    | done h' => cases h.symm.trans h'
    | more h' k =>
      cases h.symm.trans h'
      exact ih k

theorem Skips.unique {here next next' : Cursor} :
    Skips here next → Skips here next' → next = next'
  | .blanks h k, .blanks h' k' => by
      cases h.symm.trans h'
      exact k.unique k'

/-- Reading again and again, with a budget, comes to an end because no comment is left. -/
theorem comments_of_many {here : Cursor} {u r : Text}
    (h : Reader.many commentAndBlanks here.rest = some (u, r)) :
    Comments here ⟨here.offset + u.length, r⟩ := by
  cases hc : commentAndBlanks here.rest with
  | none =>
    rw [Reader.many_of_none hc] at h
    cases h
    exact .done (by rw [Cursor.read, hc]; rfl)
  | some o =>
    obtain ⟨v, t⟩ := o
    have read : here.read commentAndBlanks = some (v, ⟨here.offset + v.length, t⟩) := by
      rw [Cursor.read, hc]; rfl
    have shorter := Cursor.length_read_lt splits_commentAndBlanks takes_commentAndBlanks read
    rw [Reader.many_of_some splits_commentAndBlanks takes_commentAndBlanks hc] at h
    obtain ⟨⟨w, m⟩, hw, he⟩ := Option.map_eq_some_iff.1 h
    cases he
    have rest := @comments_of_many ⟨here.offset + v.length, t⟩ _ _ hw
    rw [List.length_append, ← Nat.add_assoc]
    exact .more read rest
termination_by here.rest.length

theorem skips_afterSkip (here : Cursor) : Skips here (afterSkip here) := by
  obtain ⟨v, r, hv⟩ := many_isSome commentAndBlanks (here.rest.dropWhile isBlank)
  have blanks : here.read (.all isBlank) = some (here.rest.takeWhile isBlank,
      ⟨here.offset + (here.rest.takeWhile isBlank).length, here.rest.dropWhile isBlank⟩) := rfl
  have whole : skip here.rest = some (here.rest.takeWhile isBlank ++ v, r) :=
    Reader.andThen_eq_some_iff.2 ⟨_, _, v, rfl, hv, rfl⟩
  have after : afterSkip here =
      ⟨here.offset + (here.rest.takeWhile isBlank).length + v.length, r⟩ := by
    simp [afterSkip, Cursor.read, whole, Nat.add_assoc]
  rw [after]
  exact .blanks blanks (comments_of_many hv)

/-! ### What there is to match -/

/-- What there is to match at a place. -/
inductive Work where
  | piece (p : Piece)
  /-- All pieces, one after the other. -/
  | inOrder (ps : List Piece)
  /-- The first of the pieces that matches. -/
  | firstOf (ps : List Piece)
  /-- All of the pieces in order, again and again until they fail. -/
  | again (ps : List Piece)
  | production (q : Production)

/-- The matching of the work at the place, from the state, comes to its end with the reply. -/
inductive Halts (remember : Bool) : Work → Cursor → State → Reply → Prop where
  -- terminals
  | leaf {t : Terminal} {here there next : Cursor} {s : State} {u : Text} (gap : Skips here there)
      (h : there.read t.reader = some (u, next)) :
      Halts remember (.piece (.term t)) here s (.matched [.leaf t there.offset u] next s)
  | missed {t : Terminal} {here there : Cursor} {s : State} (gap : Skips here there)
      (h : there.read t.reader = none) :
      Halts remember (.piece (.term t)) here s (.failed (s.miss there.offset t))
  -- rules
  | knownMatched {r : Rule} {here there : Cursor} {s : State} {ts : List Tree}
      (h : s.table.find? r here.offset = some (.matched ts there)) :
      Halts remember (.piece (.rule r)) here s (.matched ts there s)
  | knownFailed {r : Rule} {here : Cursor} {s : State}
      (h : s.table.find? r here.offset = some .failed) :
      Halts remember (.piece (.rule r)) here s (.failed s)
  | ruleMatched {r : Rule} {here there : Cursor} {s s' : State} {ts : List Tree}
      (h : s.table.find? r here.offset = none)
      (k : Halts remember (.production r.production) here s (.matched ts there s')) :
      Halts remember (.piece (.rule r)) here s (.matched (Tree.gather r ts) there
        (if remember then s'.learn r here.offset (.matched (Tree.gather r ts) there) else s'))
  | ruleFailed {r : Rule} {here : Cursor} {s s' : State}
      (h : s.table.find? r here.offset = none)
      (k : Halts remember (.production r.production) here s (.failed s')) :
      Halts remember (.piece (.rule r)) here s
        (.failed (if remember then s'.learn r here.offset .failed else s'))
  -- pieces in order
  | nil {here : Cursor} {s : State} : Halts remember (.inOrder []) here s (.matched [] here s)
  | stop {p : Piece} {ps : List Piece} {here : Cursor} {s s' : State}
      (h : Halts remember (.piece p) here s (.failed s')) :
      Halts remember (.inOrder (p :: ps)) here s (.failed s')
  | cons {p : Piece} {ps : List Piece} {here there : Cursor} {s s' : State} {ts : List Tree}
      {reply : Reply} (h : Halts remember (.piece p) here s (.matched ts there s'))
      (k : Halts remember (.inOrder ps) there s' reply) :
      Halts remember (.inOrder (p :: ps)) here s (reply.after ts)
  -- the first that matches
  | noneLeft {here : Cursor} {s : State} : Halts remember (.firstOf []) here s (.failed s)
  | next {p : Piece} {ps : List Piece} {here : Cursor} {s s' : State} {reply : Reply}
      (h : Halts remember (.piece p) here s (.failed s'))
      (k : Halts remember (.firstOf ps) here s' reply) :
      Halts remember (.firstOf (p :: ps)) here s reply
  | found {p : Piece} {ps : List Piece} {here there : Cursor} {s s' : State} {ts : List Tree}
      (h : Halts remember (.piece p) here s (.matched ts there s')) :
      Halts remember (.firstOf (p :: ps)) here s (.matched ts there s')
  -- again and again
  | done {ps : List Piece} {here : Cursor} {s s' : State}
      (h : Halts remember (.inOrder ps) here s (.failed s')) :
      Halts remember (.again ps) here s (.matched [] here s')
  | more {ps : List Piece} {here there : Cursor} {s s' : State} {ts : List Tree} {reply : Reply}
      (h : Halts remember (.inOrder ps) here s (.matched ts there s'))
      (k : Halts remember (.again ps) there s' reply) :
      Halts remember (.again ps) here s (reply.after ts)
  -- productions
  | sequence {ps : List Piece} {here : Cursor} {s : State} {reply : Reply}
      (h : Halts remember (.inOrder ps) here s reply) :
      Halts remember (.production (.sequence ps)) here s reply
  | choice {ps : List Piece} {here : Cursor} {s : State} {reply : Reply}
      (h : Halts remember (.firstOf ps) here s reply) :
      Halts remember (.production (.choice ps)) here s reply
  | absent {p : Piece} {here : Cursor} {s s' : State}
      (h : Halts remember (.piece p) here s (.failed s')) :
      Halts remember (.production (.maybe p)) here s (.matched [] here s')
  | present {p : Piece} {here there : Cursor} {s s' : State} {ts : List Tree}
      (h : Halts remember (.piece p) here s (.matched ts there s')) :
      Halts remember (.production (.maybe p)) here s (.matched ts there s')
  | many {p : Piece} {here : Cursor} {s : State} {reply : Reply}
      (h : Halts remember (.again [p]) here s reply) :
      Halts remember (.production (.many p)) here s reply
  | noLink {p : Piece} {separator : Option Piece} {here : Cursor} {s s' : State}
      (h : Halts remember (.piece p) here s (.failed s')) :
      Halts remember (.production (.chain p separator)) here s (.failed s')
  | chain {p : Piece} {separator : Option Piece} {here there : Cursor} {s s' : State}
      {ts : List Tree} {reply : Reply}
      (h : Halts remember (.piece p) here s (.matched ts there s'))
      (k : Halts remember (.again (separator.toList ++ [p])) there s' reply) :
      Halts remember (.production (.chain p separator)) here s (reply.after ts)
  | ahead {t : Terminal} {here there : Cursor} {s : State} {o : Text × Cursor}
      (gap : Skips here there) (h : there.read t.reader = some o) :
      Halts remember (.production (.notAhead t)) here s (.failed (s.reach here.offset))
  | notAhead {t : Terminal} {here there : Cursor} {s : State} (gap : Skips here there)
      (h : there.read t.reader = none) :
      Halts remember (.production (.notAhead t)) here s (.matched [] here (s.reach there.offset))

/-- There is at most one reply. -/
theorem Halts.unique {remember : Bool} {work : Work} {here : Cursor} {s : State}
    {reply reply' : Reply} (h : Halts remember work here s reply)
    (h' : Halts remember work here s reply') : reply = reply' := by
  induction h generalizing reply' with
  | leaf gap h =>
    cases h' with
    | leaf gap' h' => cases gap.unique gap'; cases h.symm.trans h'; rfl
    | missed gap' h' => cases gap.unique gap'; cases h.symm.trans h'
  | missed gap h =>
    cases h' with
    | leaf gap' h' => cases gap.unique gap'; cases h.symm.trans h'
    | missed gap' h' => cases gap.unique gap'; rfl
  | knownMatched h =>
    cases h' with
    | knownMatched h' => cases h.symm.trans h'; rfl
    | knownFailed h' | ruleMatched h' _ | ruleFailed h' _ => cases h.symm.trans h'
  | knownFailed h =>
    cases h' with
    | knownFailed h' => rfl
    | knownMatched h' | ruleMatched h' _ | ruleFailed h' _ => cases h.symm.trans h'
  | ruleMatched h _ ih =>
    cases h' with
    | knownMatched h' | knownFailed h' => cases h.symm.trans h'
    | ruleMatched _ k' => cases ih k'; rfl
    | ruleFailed _ k' => cases ih k'
  | ruleFailed h _ ih =>
    cases h' with
    | knownMatched h' | knownFailed h' => cases h.symm.trans h'
    | ruleMatched _ k' => cases ih k'
    | ruleFailed _ k' => cases ih k'; rfl
  | nil => cases h'; rfl
  | stop _ ih =>
    cases h' with
    | stop h' => exact ih h'
    | cons h' _ => cases ih h'
  | cons _ _ ih ihk =>
    cases h' with
    | stop h' => cases ih h'
    | cons h' k' => cases ih h'; rw [ihk k']
  | noneLeft => cases h'; rfl
  | next _ _ ih ihk =>
    cases h' with
    | next h' k' => cases ih h'; exact ihk k'
    | found h' => cases ih h'
  | found _ ih =>
    cases h' with
    | next h' _ => cases ih h'
    | found h' => exact ih h'
  | done _ ih =>
    cases h' with
    | done h' => cases ih h'; rfl
    | more h' _ => cases ih h'
  | more _ _ ih ihk =>
    cases h' with
    | done h' => cases ih h'
    | more h' k' => cases ih h'; rw [ihk k']
  | sequence _ ih => cases h' with | sequence h' => exact ih h'
  | choice _ ih => cases h' with | choice h' => exact ih h'
  | absent _ ih =>
    cases h' with
    | absent h' => cases ih h'; rfl
    | present h' => cases ih h'
  | present _ ih =>
    cases h' with
    | absent h' => cases ih h'
    | present h' => exact ih h'
  | many _ ih => cases h' with | many h' => exact ih h'
  | noLink _ ih =>
    cases h' with
    | noLink h' => exact ih h'
    | chain h' _ => cases ih h'
  | chain _ _ ih ihk =>
    cases h' with
    | noLink h' => cases ih h'
    | chain h' k' => cases ih h'; rw [ihk k']
  | ahead gap h =>
    cases h' with
    | ahead => rfl
    | notAhead gap' h' => cases gap.unique gap'; cases h.symm.trans h'
  | notAhead gap h =>
    cases h' with
    | ahead gap' h' => cases gap.unique gap'; cases h.symm.trans h'
    | notAhead gap' h' => cases gap.unique gap'; rfl

/-! ### Attempts -/

theorem Reply.after_ne_tooDeep {ts : List Tree} {reply : Reply} (h : reply.after ts ≠ .tooDeep) :
    reply ≠ .tooDeep := fun e => h (by rw [e]; rfl)

section Attempts
variable {source : Text} {remember : Bool} {att : Attempt} {here : Cursor} {s : State}

/-- What is attempted at a place of the source and not given up comes to its end with this reply. -/
def Halting (source : Text) (remember : Bool) (att : Attempt) : Prop :=
  ∀ (p : Piece) (here : Cursor) (s : State), here.In source → s.table.Truthful source →
    att p here s ≠ .tooDeep → Halts remember (.piece p) here s (att p here s)

theorem Halting.inOrder (hh : Halting source remember att) (ha : Answers source att) :
    ∀ (ps : List Piece) {here : Cursor} {s : State}, here.In source → s.table.Truthful source →
      Grammar.inOrder att ps here s ≠ .tooDeep →
      Halts remember (.inOrder ps) here s (Grammar.inOrder att ps here s)
  | [], _, _, _, _, _ => .nil
  | p :: ps, here, s, hin, ht, deep => by
      have head := hh p here s hin ht
      have answer := ha p here s hin ht
      unfold Grammar.inOrder at deep ⊢
      cases hr : att p here s <;> simp only [hr] at head answer deep ⊢
      · have tail := hh.inOrder ha ps (outcome_in hin answer.1) answer.2
        exact .cons (head (by simp)) (tail (Reply.after_ne_tooDeep deep))
      · exact .stop (head (by simp))
      · exact absurd rfl deep

theorem Halting.firstOf (hh : Halting source remember att) (ha : Answers source att)
    (hin : here.In source) :
    ∀ {ps : List Piece} {s : State}, s.table.Truthful source →
      Grammar.firstOf att ps here s ≠ .tooDeep →
      Halts remember (.firstOf ps) here s (Grammar.firstOf att ps here s)
  | [], _, _, _ => .noneLeft
  | p :: ps, s, ht, deep => by
      have head := hh p here s hin ht
      have answer := ha p here s hin ht
      unfold Grammar.firstOf at deep ⊢
      cases hr : att p here s <;> simp only [hr] at head answer deep ⊢
      · exact .found (head (by simp))
      · exact .next (head (by simp)) (hh.firstOf ha hin answer.2 deep)
      · exact absurd rfl deep

/-- Pieces that take a character fail before the budget is spent. -/
theorem Halting.again (hh : Halting source remember att) (ha : Answers source att) {ps : List Piece}
    (hps : ps.all Piece.nullable = false) :
    ∀ (budget : Text) {here : Cursor} {s : State}, here.rest.length ≤ budget.length →
      here.In source → s.table.Truthful source → Grammar.again att ps budget here s ≠ .tooDeep →
      Halts remember (.again ps) here s (Grammar.again att ps budget here s)
  | budget, here, s, le, hin, ht, deep => by
      have round := hh.inOrder ha ps hin ht
      have answer := ha.inOrder ps hin ht
      unfold Grammar.again at deep ⊢
      cases hr : Grammar.inOrder att ps here s <;> simp only [hr] at round answer deep ⊢
      · have shorter := (outcome_shrinks.inOrder answer.1).2 hps
        cases budget with
        | nil => rw [List.length_nil] at le; omega
        | cons c budget =>
          rw [List.length_cons] at le
          have others := hh.again ha hps budget (by omega) (inOrder_in hin answer.1) answer.2
          exact .more (round (by simp)) (others (Reply.after_ne_tooDeep deep))
      · exact .done (round (by simp))
      · exact absurd rfl deep

theorem matchTerminal_halts (t : Terminal) (here : Cursor) (s : State) :
    Halts remember (.piece (.term t)) here s (matchTerminal t here s) := by
  unfold matchTerminal
  cases hr : (afterSkip here).read t.reader <;> simp only [hr]
  · exact .missed (skips_afterSkip here) hr
  · exact .leaf (skips_afterSkip here) hr

theorem matchNotAhead_halts (t : Terminal) (here : Cursor) (s : State) :
    Halts remember (.production (.notAhead t)) here s (matchNotAhead t here s) := by
  unfold matchNotAhead
  cases hr : (afterSkip here).read t.reader <;> simp only [hr]
  · exact .notAhead (skips_afterSkip here) hr
  · exact .ahead (skips_afterSkip here) hr

theorem Halting.expand (hh : Halting source remember att) (ha : Answers source att)
    (hin : here.In source) (ht : s.table.Truthful source) {q : Production} {bound : Nat}
    (hq : q.leads bound = true) (deep : Grammar.expand att q here s ≠ .tooDeep) :
    Halts remember (.production q) here s (Grammar.expand att q here s) := by
  cases q with
  | sequence ps => exact .sequence (hh.inOrder ha ps hin ht deep)
  | choice ps => exact .choice (hh.firstOf ha hin ht deep)
  | maybe p =>
    have head := hh p here s hin ht
    simp only [Grammar.expand] at deep ⊢
    unfold orNothing at deep ⊢
    cases hr : att p here s <;> simp only [hr] at head deep ⊢
    · exact .present (head (by simp))
    · exact .absent (head (by simp))
    · exact absurd rfl deep
  | many p =>
    simp only [Production.leads, Bool.and_eq_true, Bool.not_eq_true'] at hq
    exact .many (hh.again ha (by simp [hq.2]) _ (Nat.le_refl _) hin ht deep)
  | chain p separator =>
    simp only [Production.leads, Bool.and_eq_true, Bool.not_eq_true'] at hq
    have head := hh p here s hin ht
    have answer := ha p here s hin ht
    simp only [Grammar.expand] at deep ⊢
    unfold chained at deep ⊢
    cases hr : att p here s <;> simp only [hr] at head answer deep ⊢
    · exact .chain (head (by simp)) (hh.again ha (by simp [hq.2]) _ (Nat.le_refl _)
        (outcome_in hin answer.1) answer.2 (Reply.after_ne_tooDeep deep))
    · exact .noLink (head (by simp))
    · exact absurd rfl deep
  | notAhead t => exact matchNotAhead_halts t here s

end Attempts

/-- An attempt that is not given up answers what there is without limits. -/
theorem attempt_halts {source : Text} (remember : Bool) :
    ∀ depth : Nat, Halting source remember (attempt remember depth)
  | 0, _, _, _, _, _, deep => absurd rfl deep
  | depth + 1, .term t, here, s, _, _, _ => matchTerminal_halts t here s
  | depth + 1, .rule r, here, s, hin, ht, deep => by
      have below : Halting source remember (attempt remember depth) := attempt_halts remember depth
      unfold attempt at deep ⊢
      cases hk : s.table.find? r here.offset with
      | some k =>
        cases k with
        | matched ts there => exact .knownMatched hk
        | failed => exact .knownFailed hk
      | none =>
        simp only [hk] at deep ⊢
        have ends : expand (attempt remember depth) r.production here s ≠ .tooDeep := fun e =>
          deep (matchRule_eq_tooDeep_iff.2 e)
        have answers : Answers source (attempt remember depth) := answers_attempt remember depth
        have expansion := below.expand answers hin ht r.leads_production ends
        unfold matchRule
        cases hr : expand (attempt remember depth) r.production here s <;>
          simp only [hr] at expansion ends ⊢
        · exact .ruleMatched hk expansion
        · exact .ruleFailed hk expansion
        · exact absurd rfl ends

/-- The matching of every piece at every place comes to its end, with what its outcome is; and every
attempt that is deep enough answers that. -/
theorem exists_halts {source : Text} (remember : Bool) (p : Piece) {here : Cursor} {s : State}
    (hin : here.In source) (ht : s.table.Truthful source) :
    ∃ reply, Halts remember (.piece p) here s reply ∧ reply.Agrees source (outcome p here) False ∧
      ∀ depth, size p here < depth → attempt remember depth p here s = reply := by
  -- The least depth that the size of the piece allows is deep enough.
  have agrees := (attempt_agrees remember (size p here + 1) p here s hin ht).mono
    (Nat.not_succ_le_self _)
  have answered : attempt remember (size p here + 1) p here s ≠ .tooDeep := fun given => by
    rw [given] at agrees
    exact agrees
  refine ⟨_, attempt_halts remember _ p here s hin ht answered, agrees, fun depth h => ?_⟩
  rcases attempt_kept remember (Nat.succ_le_of_lt h) p here s with given | same
  · exact absurd given answered
  · exact same.symm

end SolidScript.Grammar
