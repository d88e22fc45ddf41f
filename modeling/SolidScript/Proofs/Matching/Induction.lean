import SolidScript.Proofs.Matching.Outcome

/-!
# Matching — induction on matches

A match of a rule is built from the matches of the pieces of its production.  `Expands` says how,
for any reading of the pieces, and `outcome_induction` is the induction that it gives: what passes
from the pieces to the rule holds of every match.

* `outcome_relates`: a reflexive and transitive relation of places that every terminal keeps is kept
  by every match.
* `outcome_in`: a match stays in its source.
-/

namespace SolidScript.Grammar

/-- What it is for a piece to match from one place to another and leave these trees. -/
abbrev Match := Piece → Cursor → List Tree → Cursor → Prop

namespace Match

/-- The pieces match one after the other. -/
def InOrder (m : Match) : List Piece → Cursor → List Tree → Cursor → Prop
  | [],      here, ts, next => ts = [] ∧ next = here
  | p :: ps, here, ts, next =>
    ∃ us there vs, m p here us there ∧ m.InOrder ps there vs next ∧ ts = us ++ vs

/-- One of the pieces matches, and those before it do not. -/
def First (m : Match) : List Piece → Cursor → List Tree → Cursor → Prop
  | [],      _,    _,  _    => False
  | p :: ps, here, ts, next => m p here ts next ∨ outcome p here = none ∧ m.First ps here ts next

/-- The pieces match again and again. -/
inductive Again (m : Match) (ps : List Piece) : Cursor → List Tree → Cursor → Prop where
  | nil (here : Cursor) : Again m ps here [] here
  | cons {here there next : Cursor} {ts us : List Tree} (h : m.InOrder ps here ts there)
      (k : Again m ps there us next) : Again m ps here (ts ++ us) next

/-- The production matches. -/
def Expands (m : Match) : Production → Cursor → List Tree → Cursor → Prop
  | .sequence ps, here, ts, next => m.InOrder ps here ts next
  | .choice ps,   here, ts, next => m.First ps here ts next
  | .maybe p,     here, ts, next => ts = [] ∧ next = here ∨ m p here ts next
  | .many p,      here, ts, next => m.Again [p] here ts next
  | .chain p s,   here, ts, next =>
    ∃ us there vs, m p here us there ∧ m.Again (s.toList ++ [p]) there vs next ∧ ts = us ++ vs
  | .notAhead t,  here, ts, next => ts = [] ∧ next = here ∧ Run.terminal t here = none

variable {m : Match} {bound : Nat} {here : Cursor}

theorem First.exists_mem {next : Cursor} {ts : List Tree} :
    ∀ {ps : List Piece}, m.First ps here ts next → ∃ p ∈ ps, m p here ts next
  | p :: _, .inl h => ⟨p, List.mem_cons_self, h⟩
  | _ :: _, .inr ⟨_, h⟩ => by
      obtain ⟨q, hq, hm⟩ := First.exists_mem h
      exact ⟨q, .tail _ hq, hm⟩

/-- The reading holds of every match that is entered below the place. -/
def Covers (m : Match) (bound : Nat) (here : Cursor) : Prop :=
  ∀ (p : Piece) (there next : Cursor) (ts : List Tree), Below bound here p there →
    outcome p there = some (ts, next) → m p there ts next

theorem Covers.inOrder (hm : m.Covers bound here) :
    ∀ {ps : List Piece} {there next : Cursor} {ts : List Tree},
      there.rest.length < here.rest.length ∨
        there.rest.length ≤ here.rest.length ∧ Piece.leads bound ps = true →
      outcome.inOrder ps there = some (ts, next) → m.InOrder ps there ts next
  | [], _, _, _, _, h => by cases h; exact ⟨rfl, rfl⟩
  | p :: ps, there, next, ts, hb, h => by
      unfold Run.inOrder at h
      split at h
      · cases h
      · rename_i us mid hp
        obtain ⟨⟨vs, n⟩, hv, he⟩ := Option.map_eq_some_iff.1 h
        cases he
        have shrinks := outcome_shrinks _ _ _ _ hp
        refine ⟨us, mid, vs, hm p there mid us (hb.imp_right fun h => ⟨h.1, ?_⟩) hp,
          hm.inOrder ?_ hv, rfl⟩
        · have := h.2
          simp only [Piece.leads, Bool.and_eq_true, decide_eq_true_eq] at this
          exact this.1
        · rcases hb with hb | ⟨hle, hl⟩
          · exact .inl (Nat.lt_of_le_of_lt shrinks.1 hb)
          · simp only [Piece.leads, Bool.and_eq_true, Bool.or_eq_true, Bool.not_eq_true'] at hl
            rcases hl.2 with hn | hl
            · exact .inl (Nat.lt_of_lt_of_le (shrinks.2 hn) hle)
            · exact .inr ⟨Nat.le_trans shrinks.1 hle, hl⟩

theorem Covers.firstOf (hm : m.Covers bound here) :
    ∀ {ps : List Piece} {next : Cursor} {ts : List Tree}, (∀ p ∈ ps, p.rank < bound) →
      outcome.firstOf ps here = some (ts, next) → m.First ps here ts next
  | [], _, _, _, h => by cases h
  | p :: ps, next, ts, hb, h => by
      unfold Run.firstOf at h
      split at h
      · rename_i hp
        exact .inr ⟨hp, hm.firstOf (fun q hq => hb q (List.mem_cons_of_mem _ hq)) h⟩
      · rename_i o ho
        cases h
        exact .inl (hm p here next ts (.inr ⟨Nat.le_refl _, hb p List.mem_cons_self⟩) ho)

theorem Covers.again (hm : m.Covers bound here) {ps : List Piece}
    (hps : ps.all Piece.nullable = false) :
    ∀ (n : Nat) {there : Cursor},
      there.rest.length < here.rest.length ∨
        there.rest.length ≤ here.rest.length ∧ Piece.leads bound ps = true →
      m.Again ps there (outcome.again ps n there).1 (outcome.again ps n there).2
  | 0, there, _ => .nil there
  | n + 1, there, hb => by
      unfold Run.again
      split
      · exact .nil there
      · rename_i ts mid h
        have shrinks := (outcome_shrinks.inOrder h).2 hps
        refine .cons (hm.inOrder hb h) (hm.again hps n (.inl ?_))
        rcases hb with hb | hb
        · exact Nat.lt_trans shrinks hb
        · exact Nat.lt_of_lt_of_le shrinks hb.1

theorem Covers.expands (hm : m.Covers bound here) {q : Production} (hq : q.leads bound = true)
    {next : Cursor} {ts : List Tree} (h : outcome.expand q here = some (ts, next)) :
    m.Expands q here ts next := by
  cases q with
  | sequence ps => exact hm.inOrder (.inr ⟨Nat.le_refl _, hq⟩) h
  | choice ps => exact hm.firstOf (by simpa [Production.leads] using hq) h
  | maybe p =>
    simp only [Production.leads, decide_eq_true_eq] at hq
    simp only [Run.expand, Option.or_eq_some_iff] at h
    rcases h with h | ⟨-, h⟩
    · exact .inr (hm p here next ts (.inr ⟨Nat.le_refl _, hq⟩) h)
    · cases h; exact .inl ⟨rfl, rfl⟩
  | many p =>
    simp only [Production.leads, Bool.and_eq_true, decide_eq_true_eq, Bool.not_eq_true'] at hq
    have all : m.Again [p] here _ _ := hm.again (by simp [hq.2]) here.rest.length
      (.inr ⟨Nat.le_refl _, by simp [Piece.leads, hq]⟩)
    rwa [show outcome.again [p] here.rest.length here = (ts, next) from Option.some.inj h] at all
  | chain p s =>
    simp only [Production.leads, Bool.and_eq_true, decide_eq_true_eq, Bool.not_eq_true'] at hq
    simp only [Run.expand] at h
    split at h
    · cases h
    · rename_i us there hp
      cases h
      exact ⟨us, there, _, hm p here there us (.inr ⟨Nat.le_refl _, hq.1⟩) hp,
        hm.again (by simp [hq.2]) _ (.inl ((outcome_shrinks _ _ _ _ hp).2 hq.2)), rfl⟩
  | notAhead t =>
    simp only [Run.expand] at h
    split at h
    · cases h
    · rename_i ht
      cases h
      exact ⟨rfl, rfl, Option.not_isSome_iff_eq_none.1 ht⟩

/-- The matches of terminals, and those matches of rules of which `P` holds. -/
def Where (P : Rule → Cursor → List Tree → Cursor → Prop) : Match
  | .term t, here, ts, next => Run.terminal t here = some (ts, next)
  | .rule r, here, ts, next => outcome (.rule r) here = some (ts, next) ∧ P r here ts next

end Match

/-- What passes from the pieces of every production to its rule holds of every match. -/
theorem outcome_induction {P : Rule → Cursor → List Tree → Cursor → Prop}
    (step : ∀ (r : Rule) (here : Cursor) (ts : List Tree) (next : Cursor),
      (Match.Where P).Expands r.production here ts next → P r here (Tree.gather r ts) next)
    {r : Rule} {here next : Cursor} {ts : List Tree}
    (h : outcome (.rule r) here = some (ts, next)) : P r here ts next := by
  generalize hn : size (.rule r) here = n
  induction n using Nat.strongRecOn generalizing r here next ts with
  | ind n ih =>
    subst hn
    have covers : (Match.Where P).Covers r.rank here := fun p there m us hb hp => by
      cases p with
      | term t => exact hp
      | rule q => exact ⟨hp, ih _ (size_lt_of_below hb) hp rfl⟩
    rw [outcome_rule] at h
    obtain ⟨⟨us, m⟩, hu, he⟩ := Option.map_eq_some_iff.1 h
    cases he
    exact step r here us next (covers.expands r.leads_production hu)

/-! ### What every terminal keeps -/

section Relates
variable {R : Cursor → Cursor → Prop} {m : Match}

theorem Match.InOrder.relates (refl : ∀ c, R c c) (trans : ∀ a b c, R a b → R b c → R a c)
    (hm : ∀ p here ts next, m p here ts next → R here next) :
    ∀ {ps : List Piece} {here next : Cursor} {ts : List Tree},
      m.InOrder ps here ts next → R here next
  | [], _, _, _, h => by obtain ⟨-, rfl⟩ := h; exact refl _
  | p :: ps, here, next, ts, h => by
      obtain ⟨us, there, vs, hp, hps, -⟩ := h
      exact trans _ _ _ (hm _ _ _ _ hp) (InOrder.relates refl trans hm hps)

theorem Match.Again.relates (refl : ∀ c, R c c) (trans : ∀ a b c, R a b → R b c → R a c)
    (hm : ∀ p here ts next, m p here ts next → R here next) {ps : List Piece}
    {here next : Cursor} {ts : List Tree} (h : m.Again ps here ts next) : R here next := by
  induction h with
  | nil => exact refl _
  | cons h _ ih => exact trans _ _ _ (h.relates refl trans hm) ih

theorem Match.Expands.relates (refl : ∀ c, R c c) (trans : ∀ a b c, R a b → R b c → R a c)
    (hm : ∀ p here ts next, m p here ts next → R here next) {q : Production}
    {here next : Cursor} {ts : List Tree} (h : m.Expands q here ts next) : R here next := by
  cases q with
  | sequence ps => exact InOrder.relates refl trans hm h
  | choice ps =>
    obtain ⟨p, -, hp⟩ := First.exists_mem h
    exact hm _ _ _ _ hp
  | maybe p =>
    rcases h with ⟨-, rfl⟩ | h
    · exact refl _
    · exact hm _ _ _ _ h
  | many p => exact Again.relates refl trans hm h
  | chain p s =>
    obtain ⟨us, there, vs, hp, hs, -⟩ := h
    exact trans _ _ _ (hm _ _ _ _ hp) (hs.relates refl trans hm)
  | notAhead t => obtain ⟨-, rfl, -⟩ := h; exact refl _

/-- A reflexive and transitive relation that every terminal keeps is kept by every match. -/
theorem outcome_relates (refl : ∀ c, R c c) (trans : ∀ a b c, R a b → R b c → R a c)
    (term : ∀ t here ts next, Run.terminal t here = some (ts, next) → R here next)
    {p : Piece} {here next : Cursor} {ts : List Tree} (h : outcome p here = some (ts, next)) :
    R here next := by
  cases p with
  | term t => exact term _ _ _ _ h
  | rule r =>
    refine outcome_induction (P := fun _ here _ next => R here next) (fun r here ts next h => ?_) h
    refine Match.Expands.relates refl trans (fun p here ts next hp => ?_) h
    cases p with
    | term t => exact term _ _ _ _ hp
    | rule r => exact hp.2

end Relates

theorem afterSkip_in {source : Text} {here : Cursor} (h : here.In source) :
    (afterSkip here).In source := by
  unfold afterSkip
  split
  · rename_i he
    exact Cursor.read_in splits_skip h he
  · exact h

/-- A match stays in its source. -/
theorem outcome_in {source : Text} {p : Piece} {here next : Cursor} {ts : List Tree}
    (hin : here.In source) (h : outcome p here = some (ts, next)) : next.In source := by
  refine outcome_relates (R := fun a b => a.In source → b.In source) (fun _ h => h)
    (fun _ _ _ h k l => k (h l)) (fun t here ts next h hin => ?_) h hin
  obtain ⟨⟨u, m⟩, hr, he⟩ := Option.map_eq_some_iff.1 h
  cases he
  exact Cursor.read_in t.splits_reader (afterSkip_in hin) hr

theorem inOrder_in {source : Text} :
    ∀ {ps : List Piece} {here next : Cursor} {ts : List Tree}, here.In source →
      outcome.inOrder ps here = some (ts, next) → next.In source
  | [], _, _, _, hin, h => by cases h; exact hin
  | p :: ps, here, next, ts, hin, h => by
      unfold Run.inOrder at h
      split at h
      · cases h
      · rename_i us there hp
        obtain ⟨⟨vs, n⟩, hv, he⟩ := Option.map_eq_some_iff.1 h
        cases he
        exact inOrder_in (outcome_in hin hp) hv

end SolidScript.Grammar
