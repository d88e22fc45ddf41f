import SolidScript.Grammar.Match

/-!
# Matching — outcomes

What a piece comes to at a place when no limit is set on how deep pieces may stand inside each
other, nothing is remembered and no failure is recorded: the trees it leaves and the place after
it, or nothing.

The recursion is on a measure that no entry of a rule from another at the same place keeps: the
number of characters left, and at the same place the rank of the rule (`Rule.rank`).  A piece that
is not `nullable` takes a character, so every repetition ends and no rule comes back to itself
before something was taken.

* `outcome_rule`: the outcome of a rule is that of its production.
* `outcome_shrinks`: a match never gives characters back, and takes one unless it is nullable.
* `loop_eq`: a repetition is its piece and then the repetition again, until the piece fails.
-/

namespace SolidScript

namespace Rule

/-- How many rules may be entered from this one before anything is taken. -/
def rank : Rule → Nat
  | document => 7 | statements => 6 | topStatement => 5
  | statement => 4 | closedStatement | openStatement => 3
  | blockItems => 5
  | closedCall | openCall => 2
  | parameters => 4 | parameterGroup => 3 | parameterItems => 2
  | parameterDefault => 3 | defaultGroup => 2
  | arguments => 16 | argumentGroup => 15 | argumentItems => 14 | argument => 13
  | positionalArgument => 12
  | expression => 11 | letExpression => 3 | letRun => 2
  | ternaryLevel => 10 | ternary => 9
  | disjunction => 8 | comparison => 7 | sum => 6 | product => 5
  | unaryLevel => 4 | access => 3 | suffixes => 3 | suffix => 2
  | primary => 2 | letClauses => 2 | rangeStep => 2
  | vectorBody => 14 | vectorGroup => 13 | vectorItems => 12
  | _ => 1

/-- The rule may match without taking a character. -/
def nullable : Rule → Bool
  | document | statements | blockItems | notAssign | trailingComma | parameters
  | parameterDefault | arguments | suffixes | letClauses | rangeStep | vectorBody => true
  | _ => false

theorem rank_lt (r : Rule) : r.rank < 32 := by cases r <;> decide

end Rule

namespace Piece

/-- The rank of a rule; terminals enter nothing. -/
def rank : Piece → Nat
  | term _ => 0
  | rule r => r.rank

/-- The piece may match without taking a character. -/
def nullable : Piece → Bool
  | term t => t = .endOfInput
  | rule r => r.nullable

theorem rank_lt (p : Piece) : p.rank < 32 := by
  cases p with
  | term => exact Nat.zero_lt_succ _
  | rule r => exact r.rank_lt

/-- Only pieces of lower rank are entered before something is taken. -/
def leads (bound : Nat) : List Piece → Bool
  | []      => true
  | p :: ps => decide (p.rank < bound) && (!p.nullable || leads bound ps)

end Piece

namespace Production

/-- The production may match without taking a character. -/
def nullable : Production → Bool
  | sequence ps => ps.all Piece.nullable
  | choice ps   => ps.any Piece.nullable
  | maybe _     => true
  | many _      => true
  | chain p _   => p.nullable
  | notAhead _  => true

/-- Only pieces of lower rank are entered before something is taken, and what is repeated takes
something. -/
def leads (bound : Nat) : Production → Bool
  | sequence ps => Piece.leads bound ps
  | choice ps   => ps.all fun p => p.rank < bound
  | maybe p     => p.rank < bound
  | many p      => decide (p.rank < bound) && !p.nullable
  | chain p _   => decide (p.rank < bound) && !p.nullable
  | notAhead _  => true

end Production

namespace Rule

/-- Whether a rule may take nothing is settled by its production. -/
theorem nullable_production (r : Rule) : r.production.nullable = r.nullable := by
  cases r <;> decide

/-- Before anything is taken a rule enters only rules of lower rank. -/
theorem leads_production (r : Rule) : r.production.leads r.rank = true := by
  cases r <;> decide

end Rule

namespace Grammar

/-- What a piece comes to at a place: its trees and the place after it, if it matches. -/
abbrev Outcome := Option (List Tree × Cursor)

/-- The outcome with these trees before its own. -/
def Outcome.after (ts : List Tree) (o : Outcome) : Outcome :=
  o.map fun (us, next) => (ts ++ us, next)

/-- What pieces come to at places. -/
abbrev Run := Piece → Cursor → Outcome

namespace Run

/-- The terminal, after the gap. -/
def terminal (t : Terminal) (here : Cursor) : Outcome :=
  ((afterSkip here).read t.reader).map fun (u, next) => ([.leaf t (afterSkip here).offset u], next)

/-- All pieces, one after the other. -/
def inOrder (run : Run) : List Piece → Cursor → Outcome
  | [],      here => some ([], here)
  | p :: ps, here =>
    match run p here with
    | none             => none
    | some (ts, there) => (inOrder run ps there).after ts

/-- The first of the pieces that matches. -/
def firstOf (run : Run) : List Piece → Cursor → Outcome
  | [],      _    => none
  | p :: ps, here =>
    match run p here with
    | none   => firstOf run ps here
    | some o => some o

/-- The pieces again and again until they fail, at most so often. -/
def again (run : Run) (ps : List Piece) : Nat → Cursor → List Tree × Cursor
  | 0,     here => ([], here)
  | n + 1, here =>
    match run.inOrder ps here with
    | none             => ([], here)
    | some (ts, there) =>
      let (us, next) := again run ps n there
      (ts ++ us, next)

/-- The pieces again and again until they fail. -/
def loop (run : Run) (ps : List Piece) (here : Cursor) : List Tree × Cursor :=
  run.again ps here.rest.length here

/-- A production. -/
def expand (run : Run) : Production → Cursor → Outcome
  | .sequence ps => run.inOrder ps
  | .choice ps   => run.firstOf ps
  | .maybe p     => fun here => (run p here).or (some ([], here))
  | .many p      => fun here => some (run.loop [p] here)
  | .chain p s   => fun here =>
    match run p here with
    | none             => none
    | some (ts, there) =>
      let (us, next) := run.loop (s.toList ++ [p]) there
      some (ts ++ us, next)
  | .notAhead t  => fun here => if (terminal t here).isSome then none else some ([], here)

/-- A piece, with so many rules inside each other at most. -/
def within : Nat → Run
  | 0,     _,       _    => none
  | _ + 1, .term t, here => terminal t here
  | n + 1, .rule r, here =>
    ((within n).expand r.production here).map fun (ts, next) => (Tree.gather r ts, next)

end Run

/-! ### Nothing is given back -/

/-- A match gives no characters back, and takes one unless its piece is nullable. -/
def Run.Shrinks (run : Run) : Prop :=
  ∀ (p : Piece) (here next : Cursor) (ts : List Tree), run p here = some (ts, next) →
    next.rest.length ≤ here.rest.length ∧
      (p.nullable = false → next.rest.length < here.rest.length)

theorem length_afterSkip_le (here : Cursor) :
    (afterSkip here).rest.length ≤ here.rest.length := by
  unfold afterSkip
  split
  · rename_i u next h
    exact Cursor.length_read_le splits_skip h
  · exact Nat.le_refl _

namespace Run

/-- A terminal gives no characters back. -/
theorem length_terminal_le {t : Terminal} {here next : Cursor} {ts : List Tree}
    (h : terminal t here = some (ts, next)) : next.rest.length ≤ here.rest.length := by
  obtain ⟨⟨u, m⟩, hr, he⟩ := Option.map_eq_some_iff.1 h
  cases he
  exact Nat.le_trans (Cursor.length_read_le t.splits_reader hr) (length_afterSkip_le here)

/-- A terminal takes a character, but for the end of the input. -/
theorem length_terminal_lt {t : Terminal} (ht : t ≠ .endOfInput) {here next : Cursor}
    {ts : List Tree} (h : terminal t here = some (ts, next)) :
    next.rest.length < here.rest.length := by
  obtain ⟨⟨u, m⟩, hr, he⟩ := Option.map_eq_some_iff.1 h
  cases he
  exact Nat.lt_of_lt_of_le (Cursor.length_read_lt t.splits_reader (Terminal.takes_reader ht) hr)
    (length_afterSkip_le here)

variable {run : Run}

/-- Pieces in order give no characters back, and take one unless all of them may take none. -/
theorem Shrinks.inOrder (hs : run.Shrinks) :
    ∀ {ps : List Piece} {here next : Cursor} {ts : List Tree},
      run.inOrder ps here = some (ts, next) →
      next.rest.length ≤ here.rest.length ∧
        (ps.all Piece.nullable = false → next.rest.length < here.rest.length)
  | [], here, next, ts, h => by
      cases h
      exact ⟨Nat.le_refl _, fun h => by cases h⟩
  | p :: ps, here, next, ts, h => by
      unfold Run.inOrder at h
      split at h
      · cases h
      · rename_i us there hp
        obtain ⟨⟨vs, m⟩, hv, he⟩ := Option.map_eq_some_iff.1 h
        cases he
        have first := hs _ _ _ _ hp
        have others := hs.inOrder hv
        refine ⟨Nat.le_trans others.1 first.1, fun hn => ?_⟩
        cases hp' : p.nullable with
        | false => exact Nat.lt_of_le_of_lt others.1 (first.2 hp')
        | true =>
          have hps : ps.all Piece.nullable = false := by simpa [hp'] using hn
          exact Nat.lt_of_lt_of_le (others.2 hps) first.1

/-- A choice gives no characters back, and takes one unless one of its pieces may take none. -/
theorem Shrinks.firstOf (hs : run.Shrinks) :
    ∀ {ps : List Piece} {here next : Cursor} {ts : List Tree},
      run.firstOf ps here = some (ts, next) →
      next.rest.length ≤ here.rest.length ∧
        (ps.any Piece.nullable = false → next.rest.length < here.rest.length)
  | [], _, _, _, h => by cases h
  | p :: ps, here, next, ts, h => by
      unfold Run.firstOf at h
      split at h
      · have others := hs.firstOf h
        refine ⟨others.1, fun hn => others.2 ?_⟩
        rw [List.any_cons, Bool.or_eq_false_iff] at hn
        exact hn.2
      · rename_i o ho
        cases h
        have first := hs _ _ _ _ ho
        refine ⟨first.1, fun hn => first.2 ?_⟩
        rw [List.any_cons, Bool.or_eq_false_iff] at hn
        exact hn.1

/-- A repetition gives no characters back. -/
theorem Shrinks.again (hs : run.Shrinks) (ps : List Piece) :
    ∀ (n : Nat) (here : Cursor), (run.again ps n here).2.rest.length ≤ here.rest.length
  | 0, _ => Nat.le_refl _
  | n + 1, here => by
      unfold Run.again
      split
      · exact Nat.le_refl _
      · rename_i ts there h
        exact Nat.le_trans (hs.again ps n there) (hs.inOrder h).1

/-- A production gives no characters back, and takes one unless it may take none. -/
theorem Shrinks.expand (hs : run.Shrinks) {q : Production} {here next : Cursor}
    {ts : List Tree} (h : run.expand q here = some (ts, next)) :
    next.rest.length ≤ here.rest.length ∧
      (q.nullable = false → next.rest.length < here.rest.length) := by
  cases q with
  | sequence ps => exact hs.inOrder h
  | choice ps => exact hs.firstOf h
  | maybe p =>
    refine ⟨?_, fun hn => by cases hn⟩
    simp only [Run.expand, Option.or_eq_some_iff] at h
    rcases h with h | ⟨-, h⟩
    · exact (hs _ _ _ _ h).1
    · cases h; exact Nat.le_refl _
  | many p =>
    refine ⟨?_, fun hn => by cases hn⟩
    have he := Option.some.inj h
    have loop := hs.again [p] here.rest.length here
    rwa [show run.again [p] here.rest.length here = (ts, next) from he] at loop
  | chain p s =>
    simp only [Run.expand] at h
    split at h
    · cases h
    · rename_i us there hp
      cases h
      have loop := hs.again (s.toList ++ [p]) there.rest.length there
      exact ⟨Nat.le_trans loop (hs _ _ _ _ hp).1, fun hn => Nat.lt_of_le_of_lt loop ((hs _ _ _ _ hp).2 hn)⟩
  | notAhead t =>
    simp only [Run.expand] at h
    split at h
    · cases h
    · cases h
      exact ⟨Nat.le_refl _, fun hn => by cases hn⟩

/-- Matching to a bounded depth gives no characters back. -/
theorem within_shrinks : ∀ n : Nat, (within n).Shrinks
  | 0, _, _, _, _, h => by simp [within] at h
  | n + 1, p, here, next, ts, h => by
      cases p with
      | term t =>
        refine ⟨length_terminal_le h, fun hn => length_terminal_lt ?_ h⟩
        simpa [Piece.nullable] using hn
      | rule r =>
        obtain ⟨⟨us, m⟩, hm, he⟩ := Option.map_eq_some_iff.1 h
        cases he
        have := (within_shrinks n).expand hm
        rwa [r.nullable_production] at this

end Run

/-- The characters left, and the rank of the piece. -/
def size (p : Piece) (here : Cursor) : Nat := here.rest.length * 32 + p.rank

/-- What a piece comes to at a place. -/
def outcome : Run := fun p here => Run.within (size p here + 1) p here

/-! ### The limit on depth does not show -/

/-- The piece is entered after something has been taken, or it has a lower rank. -/
def Below (bound : Nat) (here : Cursor) (p : Piece) (there : Cursor) : Prop :=
  there.rest.length < here.rest.length ∨
    there.rest.length ≤ here.rest.length ∧ p.rank < bound

/-- What is entered from a rule is smaller in the measure. -/
theorem size_lt_of_below {r : Rule} {here there : Cursor} {p : Piece}
    (h : Below r.rank here p there) : size p there < size (.rule r) here := by
  have hr := p.rank_lt
  have he : (Piece.rule r).rank = r.rank := rfl
  unfold Below at h
  simp only [size, he]
  omega

/-- The runs agree on every piece that is entered below the place. -/
def Run.Agree (f g : Run) (bound : Nat) (here : Cursor) : Prop :=
  ∀ (p : Piece) (there : Cursor), Below bound here p there → f p there = g p there

namespace Run
variable {f g : Run} {bound : Nat} {here : Cursor}

/-- Two runs that agree below a place agree on pieces in order there. -/
theorem Agree.inOrder (ha : f.Agree g bound here) (hs : g.Shrinks) :
    ∀ {ps : List Piece} {there : Cursor},
      there.rest.length < here.rest.length ∨
        there.rest.length ≤ here.rest.length ∧ Piece.leads bound ps = true →
      f.inOrder ps there = g.inOrder ps there
  | [], _, _ => rfl
  | p :: ps, there, h => by
      have head : f p there = g p there := by
        refine ha p there (h.imp_right fun h => ⟨h.1, ?_⟩)
        have := h.2
        simp only [Piece.leads, Bool.and_eq_true, decide_eq_true_eq] at this
        exact this.1
      unfold Run.inOrder
      rw [head]
      split
      · rfl
      · rename_i ts next hp
        have shrinks := hs _ _ _ _ hp
        rw [ha.inOrder hs]
        rcases h with h | ⟨hle, hl⟩
        · exact .inl (Nat.lt_of_le_of_lt shrinks.1 h)
        · simp only [Piece.leads, Bool.and_eq_true, Bool.or_eq_true, Bool.not_eq_true'] at hl
          rcases hl.2 with hn | hl
          · exact .inl (Nat.lt_of_lt_of_le (shrinks.2 hn) hle)
          · exact .inr ⟨Nat.le_trans shrinks.1 hle, hl⟩

/-- Two runs that agree below a place agree on a choice there. -/
theorem Agree.firstOf (ha : f.Agree g bound here) :
    ∀ {ps : List Piece}, (∀ p ∈ ps, p.rank < bound) → f.firstOf ps here = g.firstOf ps here
  | [], _ => rfl
  | p :: ps, h => by
      unfold Run.firstOf
      rw [ha p here (.inr ⟨Nat.le_refl _, h p List.mem_cons_self⟩),
        ha.firstOf fun q hq => h q (List.mem_cons_of_mem _ hq)]

/-- Two runs that agree below a place agree on a repetition there. -/
theorem Agree.again (ha : f.Agree g bound here) (hs : g.Shrinks) {ps : List Piece}
    (hps : ps.all Piece.nullable = false) :
    ∀ (n : Nat) {there : Cursor},
      there.rest.length < here.rest.length ∨
        there.rest.length ≤ here.rest.length ∧ Piece.leads bound ps = true →
      f.again ps n there = g.again ps n there
  | 0, _, _ => rfl
  | n + 1, there, h => by
      unfold Run.again
      rw [ha.inOrder hs h]
      split
      · rfl
      · rename_i ts next hp
        have shrinks := (hs.inOrder hp).2 hps
        rw [ha.again hs hps n (.inl ?_)]
        rcases h with h | h
        · exact Nat.lt_trans shrinks h
        · exact Nat.lt_of_lt_of_le shrinks h.1

/-- Two runs that agree below a place agree on a production there. -/
theorem Agree.expand (ha : f.Agree g bound here) (hs : g.Shrinks) {q : Production}
    (hq : q.leads bound = true) : f.expand q here = g.expand q here := by
  cases q with
  | sequence ps => exact ha.inOrder hs (.inr ⟨Nat.le_refl _, hq⟩)
  | choice ps => exact ha.firstOf (by simpa [Production.leads] using hq)
  | maybe p =>
    simp only [Production.leads, decide_eq_true_eq] at hq
    simp only [Run.expand, ha p here (.inr ⟨Nat.le_refl _, hq⟩)]
  | many p =>
    simp only [Production.leads, Bool.and_eq_true, decide_eq_true_eq, Bool.not_eq_true'] at hq
    simp only [Run.expand, Run.loop]
    rw [ha.again hs (by simp [hq.2]) _ (.inr ⟨Nat.le_refl _, by simp [Piece.leads, hq]⟩)]
  | chain p s =>
    simp only [Production.leads, Bool.and_eq_true, decide_eq_true_eq, Bool.not_eq_true'] at hq
    simp only [Run.expand, Run.loop]
    rw [ha p here (.inr ⟨Nat.le_refl _, hq.1⟩)]
    split
    · rfl
    · rename_i ts there hp
      rw [ha.again hs (by simp [hq.2]) _ (.inl ((hs _ _ _ _ hp).2 hq.2))]
  | notAhead t => rfl

/-- Deep enough is deep enough. -/
theorem within_eq_within :
    ∀ {n m : Nat} {p : Piece} {here : Cursor}, size p here < n → size p here < m →
      within n p here = within m p here
  | n + 1, m + 1, .term t, here, _, _ => rfl
  | n + 1, m + 1, .rule r, here, hn, hm => by
      have agree : (within n).Agree (within m) r.rank here := fun p there h => by
        have := size_lt_of_below h
        exact within_eq_within (by omega) (by omega)
      simp only [within, agree.expand (within_shrinks m) r.leads_production]

end Run

/-- To a depth beyond the measure, matching comes to the outcome. -/
theorem within_eq_outcome {n : Nat} {p : Piece} {here : Cursor} (h : size p here < n) :
    Run.within n p here = outcome p here :=
  Run.within_eq_within h (Nat.lt_succ_self _)

/-- The outcome gives no characters back. -/
theorem outcome_shrinks : outcome.Shrinks := fun _ _ _ _ h => Run.within_shrinks _ _ _ _ _ h

/-- The outcome of a rule is that of its production, as trees of the rule. -/
theorem outcome_rule (r : Rule) (here : Cursor) :
    outcome (.rule r) here =
      (outcome.expand r.production here).map fun (ts, next) => (Tree.gather r ts, next) := by
  have agree : (Run.within (size (.rule r) here)).Agree outcome r.rank here := fun p there h =>
    within_eq_outcome (size_lt_of_below h)
  simp only [outcome, Run.within]
  rw [agree.expand outcome_shrinks r.leads_production]

/-! ### Sequences and choices -/

theorem Outcome.after_nil (o : Outcome) : o.after [] = o := by cases o <;> rfl

theorem Outcome.after_after (ts us : List Tree) (o : Outcome) :
    (o.after us).after ts = o.after (ts ++ us) := by
  cases o <;> simp [Outcome.after]

/-- Pieces and then more pieces match where the first do and the others do after them. -/
theorem Run.inOrder_append (run : Run) :
    ∀ (ps qs : List Piece) (here : Cursor),
      run.inOrder (ps ++ qs) here =
        (run.inOrder ps here).bind fun o => (run.inOrder qs o.2).after o.1
  | [], qs, here => by simp [Run.inOrder, Outcome.after_nil]
  | p :: ps, qs, here => by
      rw [List.cons_append, Run.inOrder, Run.inOrder]
      cases run p here with
      | none => rfl
      | some o =>
        dsimp only
        rw [run.inOrder_append ps qs]
        cases run.inOrder ps o.2 with
        | none => rfl
        | some o' => exact Outcome.after_after _ _ _

theorem Run.inOrder_singleton (run : Run) (p : Piece) (here : Cursor) :
    run.inOrder [p] here = run p here := by
  rw [Run.inOrder]
  cases run p here with
  | none => rfl
  | some o => simp [Run.inOrder, Outcome.after]

/-- A choice fails where all its alternatives do. -/
theorem Run.firstOf_eq_none_iff {run : Run} {here : Cursor} {ps : List Piece} :
    run.firstOf ps here = none ↔ ∀ p ∈ ps, run p here = none := by
  induction ps with
  | nil => simp [Run.firstOf]
  | cons p ps ih =>
    rw [Run.firstOf]
    cases h : run p here with
    | none => simp [h, ih]
    | some o => simp [h]

theorem Run.firstOf_nil (run : Run) (here : Cursor) : run.firstOf [] here = none := rfl

/-- A choice comes to what its first piece comes to, or else to what the others do. -/
theorem Run.firstOf_cons_eq_some_iff {run : Run} {p : Piece} {ps : List Piece} {here : Cursor}
    {o : List Tree × Cursor} :
    run.firstOf (p :: ps) here = some o ↔
      run p here = some o ∨ run p here = none ∧ run.firstOf ps here = some o := by
  rw [Run.firstOf]
  cases h : run p here with
  | none => simp
  | some o' => simp

/-- A sequence comes to what its pieces come to in order. -/
theorem outcome_sequence {r : Rule} {ps : List Piece} (hr : r.production = .sequence ps)
    (here : Cursor) :
    outcome (.rule r) here =
      (outcome.inOrder ps here).map fun (ts, next) => (Tree.gather r ts, next) := by
  rw [outcome_rule, hr]
  rfl

/-- Pieces in order come to what the first does and then the others behind it. -/
theorem Run.inOrder_cons_eq_some_iff {run : Run} {p : Piece} {ps : List Piece}
    {here next : Cursor} {ts : List Tree} :
    run.inOrder (p :: ps) here = some (ts, next) ↔
      ∃ us there vs, run p here = some (us, there) ∧
        run.inOrder ps there = some (vs, next) ∧ ts = us ++ vs := by
  rw [Run.inOrder]
  cases run p here with
  | none => simp
  | some o =>
    constructor
    · intro h
      obtain ⟨⟨vs, m⟩, hv, he⟩ := Option.map_eq_some_iff.1 h
      cases he
      exact ⟨o.1, o.2, vs, rfl, hv, rfl⟩
    · rintro ⟨us, there, vs, ho, hv, rfl⟩
      cases ho
      simp [Outcome.after, hv]

/-- Pieces in order can be cut in two anywhere. -/
theorem Run.inOrder_append_eq_some_iff {run : Run} {ps qs : List Piece} {here next : Cursor}
    {ts : List Tree} :
    run.inOrder (ps ++ qs) here = some (ts, next) ↔
      ∃ us there vs, run.inOrder ps here = some (us, there) ∧
        run.inOrder qs there = some (vs, next) ∧ ts = us ++ vs := by
  rw [run.inOrder_append]
  cases run.inOrder ps here with
  | none => simp
  | some o =>
    constructor
    · intro h
      obtain ⟨⟨vs, m⟩, hv, he⟩ := Option.map_eq_some_iff.1 h
      cases he
      exact ⟨o.1, o.2, vs, rfl, hv, rfl⟩
    · rintro ⟨us, there, vs, ho, hv, rfl⟩
      cases ho
      simp [Outcome.after, hv]

/-- What a sequence comes to is what its pieces come to in order, gathered. -/
theorem outcome_sequence_eq_some_iff {r : Rule} {ps : List Piece}
    (hr : r.production = .sequence ps) {here next : Cursor} {ts : List Tree} :
    outcome (.rule r) here = some (ts, next) ↔
      ∃ us, outcome.inOrder ps here = some (us, next) ∧ ts = Tree.gather r us := by
  rw [outcome_sequence hr, Option.map_eq_some_iff]
  constructor
  · rintro ⟨⟨us, m⟩, hu, he⟩
    cases he
    exact ⟨us, hu, rfl⟩
  · rintro ⟨us, hu, rfl⟩
    exact ⟨(us, next), hu, rfl⟩

/-- What a choice comes to is what the first of its pieces that matches comes to. -/
theorem outcome_choice_eq_some_iff {r : Rule} {ps : List Piece} (hr : r.production = .choice ps)
    {here next : Cursor} {ts : List Tree} :
    outcome (.rule r) here = some (ts, next) ↔
      ∃ us, outcome.firstOf ps here = some (us, next) ∧ ts = Tree.gather r us := by
  rw [outcome_rule, hr, Option.map_eq_some_iff]
  constructor
  · rintro ⟨⟨us, m⟩, hu, he⟩
    cases he
    exact ⟨us, hu, rfl⟩
  · rintro ⟨us, hu, rfl⟩
    exact ⟨(us, next), hu, rfl⟩

/-- A sequence fails where its pieces do. -/
theorem outcome_sequence_eq_none_iff {r : Rule} {ps : List Piece}
    (hr : r.production = .sequence ps) {here : Cursor} :
    outcome (.rule r) here = none ↔ outcome.inOrder ps here = none := by
  rw [outcome_sequence hr, Option.map_eq_none_iff]

/-- A choice fails if each of its pieces does. -/
theorem outcome_choice_eq_none_iff {r : Rule} {ps : List Piece} (hr : r.production = .choice ps)
    {here : Cursor} : outcome (.rule r) here = none ↔ ∀ p ∈ ps, outcome p here = none := by
  rw [outcome_rule, hr, Option.map_eq_none_iff]
  exact Run.firstOf_eq_none_iff

/-! ### Repetitions -/

/-- A repetition of what takes characters needs no more turns than there are characters. -/
theorem again_eq_again {ps : List Piece} (hps : ps.all Piece.nullable = false) :
    ∀ {n m : Nat} {here : Cursor}, here.rest.length ≤ n → here.rest.length ≤ m →
      outcome.again ps n here = outcome.again ps m here
  | 0, 0, _, _, _ => rfl
  | 0, m + 1, here, hn, _ => by
      unfold Run.again
      split
      · rfl
      · rename_i ts there h
        have := (outcome_shrinks.inOrder h).2 hps
        omega
  | n + 1, 0, here, _, hm => by
      unfold Run.again
      split
      · rfl
      · rename_i ts there h
        have := (outcome_shrinks.inOrder h).2 hps
        omega
  | n + 1, m + 1, here, hn, hm => by
      unfold Run.again
      split
      · rfl
      · rename_i ts there h
        have := (outcome_shrinks.inOrder h).2 hps
        rw [again_eq_again hps (n := n) (m := m) (by omega) (by omega)]

/-- A repetition ends where its pieces fail. -/
theorem loop_of_none {ps : List Piece} {here : Cursor} (h : outcome.inOrder ps here = none) :
    outcome.loop ps here = ([], here) := by
  unfold Run.loop
  cases here.rest.length with
  | zero => rfl
  | succ n => simp [Run.again, h]

/-- A repetition goes on where its pieces match. -/
theorem loop_of_some {ps : List Piece} (hps : ps.all Piece.nullable = false)
    {here there : Cursor} {ts : List Tree} (h : outcome.inOrder ps here = some (ts, there)) :
    outcome.loop ps here =
      (ts ++ (outcome.loop ps there).1, (outcome.loop ps there).2) := by
  have shrinks := (outcome_shrinks.inOrder h).2 hps
  unfold Run.loop
  obtain ⟨n, hn⟩ : ∃ n, here.rest.length = n + 1 := ⟨here.rest.length - 1, by omega⟩
  rw [hn, Run.again, h]
  dsimp only
  rw [again_eq_again hps (n := n) (m := there.rest.length) (by omega) (Nat.le_refl _)]

end Grammar

end SolidScript
