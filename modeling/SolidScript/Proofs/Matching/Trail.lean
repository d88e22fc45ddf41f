import SolidScript.Proofs.Matching.Visits

/-!
# Matching — what an attempt reports

Whatever is recorded before it, an attempt at a piece adds the same to the record of failures: its
trail.  What has been added once changes nothing when it is added again, and whatever stands in the
table has left its trail in the record before; so an attempt that takes an answer from the table
leaves the record that it would leave without one.

* `attempt_adds`: an attempt adds its trail, with a table or without, unless it is given up.
* `judge_eq_judge`: any two settings that are deep enough for a source come to the same verdict.
-/

namespace SolidScript

namespace Furthest

/-- The record of nothing. -/
def none : Furthest := ⟨0, []⟩

theorem join_none (f : Furthest) : f.join none = f := by
  rcases Nat.eq_zero_or_pos f.offset with h | h
  · rw [join_of_eq (by exact h)]
    simp [none, union]
  · exact join_of_gt h

theorem join_none_join (f g : Furthest) : f.join (none.join g) = f.join g := by
  rw [← join_assoc, join_none]

/-- A record changes nothing if it is of an earlier place, or of the same one with nothing new. -/
theorem join_eq_left_iff {f g : Furthest} :
    f.join g = f ↔ g.offset < f.offset ∨ g.offset = f.offset ∧ ∀ t ∈ g.missed, t ∈ f.missed := by
  rcases Nat.lt_trichotomy f.offset g.offset with h | h | h
  · rw [join_of_lt h]
    constructor
    · rintro rfl
      omega
    · omega
  · rw [join_of_eq h]
    constructor
    · intro he
      refine .inr ⟨h.symm, fun t ht => ?_⟩
      rw [← he]
      exact mem_union.2 (.inr ht)
    · rintro (hl | ⟨-, hm⟩)
      · omega
      · rw [union_of_subset hm]
  · exact iff_of_true (join_of_gt h) (.inl h)

/-- What changes nothing changes nothing later. -/
theorem join_eq_left_mono {f g : Furthest} (h : f.join g = f) (x : Furthest) :
    (f.join x).join g = f.join x := by
  rcases Nat.lt_trichotomy f.offset x.offset with l | l | l
  · rw [join_of_lt l, join_eq_left_iff]
    rcases join_eq_left_iff.1 h with h | h <;> omega
  · rw [join_of_eq l, join_eq_left_iff]
    exact (join_eq_left_iff.1 h).imp_right fun ⟨ho, hm⟩ => ⟨ho, fun t ht => mem_union.2 (.inl (hm t ht))⟩
  · rw [join_of_gt l, h]

end Furthest

namespace Grammar

/-- The record that a reply comes with. -/
def Reply.furthest : Reply → Furthest
  | .matched _ _ s => s.furthest
  | .failed s      => s.furthest
  | .tooDeep       => .none

/-- What an attempt at the piece adds to the record: what it records where nothing is recorded and
nothing known. -/
def trail (p : Piece) (here : Cursor) : Furthest :=
  (attempt false (size p here + 1) p here ⟨.none, .empty⟩).furthest

variable {source : Text}

/-- The table is true of the source, and everything in it has left its trail. -/
structure Sound (source : Text) (s : State) : Prop where
  truthful : s.table.Truthful source
  trailed : ∀ (r : Rule) (here : Cursor), here.In source → s.table.find? r here.offset ≠ none →
    s.furthest.join (trail (.rule r) here) = s.furthest

theorem sound_of_empty (source : Text) (f : Furthest) : Sound source ⟨f, .empty⟩ where
  truthful := Table.truthful_empty source
  trailed _ _ _ h := absurd (Table.find?_empty _ _) h

/-- What is added to the record takes no trail away. -/
theorem Sound.join {s : State} (h : Sound source s) (f : Furthest) :
    Sound source ⟨s.furthest.join f, s.table⟩ where
  truthful := h.truthful
  trailed r here hin hk := Furthest.join_eq_left_mono (h.trailed r here hin hk) f

/-- What becomes of a rule is put into the table after its trail was left. -/
theorem Sound.learn {s : State} (h : Sound source s) {r : Rule} {here : Cursor}
    (hin : here.In source) (hf : s.furthest.join (trail (.rule r) here) = s.furthest) :
    Sound source (s.learn r here.offset (outcome (.rule r) here).known) where
  truthful := truthful_learn h.truthful hin
  trailed q there hin' hk := by
    by_cases he : r = q ∧ here.offset = there.offset
    · obtain ⟨rfl, ho⟩ := he
      rw [← hin.ext hin' ho]
      exact hf
    · refine h.trailed q there hin' ?_
      rwa [State.learn, Table.find?_insert_of_ne _ _ he] at hk

/-- The reply is given up, or its record has just `f` more than that of the state before. -/
def Reply.Adds (source : Text) (s : State) (f : Furthest) : Reply → Prop
  | .matched _ _ s' => s'.furthest = s.furthest.join f ∧ Sound source s'
  | .failed s'      => s'.furthest = s.furthest.join f ∧ Sound source s'
  | .tooDeep        => True

theorem Reply.Adds.after {s : State} {f : Furthest} {ts : List Tree} :
    ∀ {r : Reply}, r.Adds source s f → (r.after ts).Adds source s f
  | .matched _ _ _, h => h
  | .failed _, h => h
  | .tooDeep, _ => trivial

/-- One after the other, attempts add what both add. -/
theorem Reply.Adds.trans {s t : State} {f g : Furthest} (hf : t.furthest = s.furthest.join f) :
    ∀ {r : Reply}, r.Adds source t g → r.Adds source s (f.join g)
  | .matched _ _ _, h => ⟨by rw [h.1, hf, Furthest.join_assoc], h.2⟩
  | .failed _, h => ⟨by rw [h.1, hf, Furthest.join_assoc], h.2⟩
  | .tooDeep, _ => trivial

/-! ### Productions -/

/-- Attempts answer what the outcomes are, and those at pieces below the bound add their trails. -/
structure Follows (source : Text) (att : Attempt) (bound : Nat) (here : Cursor) : Prop where
  answers : Answers source att
  adds : ∀ (p : Piece) (there : Cursor) (s : State), Below bound here p there →
    there.In source → Sound source s → (att p there s).Adds source s (trail p there)

section Productions
variable {bound : Nat} {here : Cursor}

/-- The first of the pieces is below the bound. -/
theorem below_head {p : Piece} {ps : List Piece} {there : Cursor}
    (hb : there.rest.length < here.rest.length ∨
      there.rest.length ≤ here.rest.length ∧ Piece.leads bound (p :: ps) = true) :
    Below bound here p there := by
  refine hb.imp_right fun ⟨hl, h⟩ => ⟨hl, ?_⟩
  simp only [Piece.leads, Bool.and_eq_true, decide_eq_true_eq] at h
  exact h.1

/-- After the first of the pieces the others are below the bound. -/
theorem below_tail {p : Piece} {ps : List Piece} {there next : Cursor} {ts : List Tree}
    (hb : there.rest.length < here.rest.length ∨
      there.rest.length ≤ here.rest.length ∧ Piece.leads bound (p :: ps) = true)
    (ho : outcome p there = some (ts, next)) :
    next.rest.length < here.rest.length ∨
      next.rest.length ≤ here.rest.length ∧ Piece.leads bound ps = true := by
  obtain ⟨le, lt⟩ := outcome_shrinks _ _ _ _ ho
  rcases hb with hb | ⟨hl, h⟩
  · exact .inl (by omega)
  · simp only [Piece.leads, Bool.and_eq_true, Bool.or_eq_true, Bool.not_eq_true'] at h
    rcases h.2 with hn | h
    · exact .inl (Nat.lt_of_lt_of_le (lt hn) hl)
    · exact .inr ⟨Nat.le_trans le hl, h⟩

theorem exists_inOrder_adds : ∀ (ps : List Piece) {there : Cursor},
    there.rest.length < here.rest.length ∨
      there.rest.length ≤ here.rest.length ∧ Piece.leads bound ps = true → there.In source →
    ∃ f, ∀ (att : Attempt) (s : State), Follows source att bound here → Sound source s →
      (inOrder att ps there s).Adds source s f
  | [], _, _, _ => ⟨.none, fun _ _ _ hs => ⟨(Furthest.join_none _).symm, hs⟩⟩
  | p :: ps, there, hb, hin => by
      cases ho : outcome p there with
      | none =>
        refine ⟨trail p there, fun att s follows hs => ?_⟩
        have answer := follows.answers p there s hin hs.truthful
        have adds := follows.adds p there s (below_head hb) hin hs
        unfold inOrder
        cases hr : att p there s with
        | failed s' => rw [hr] at adds; exact adds
        | tooDeep => trivial
        | matched ts next s' => rw [hr, ho] at answer; cases answer.1
      | some o =>
        obtain ⟨f, rest⟩ := exists_inOrder_adds ps (below_tail hb ho) (outcome_in hin ho)
        refine ⟨(trail p there).join f, fun att s follows hs => ?_⟩
        have answer := follows.answers p there s hin hs.truthful
        have adds := follows.adds p there s (below_head hb) hin hs
        unfold inOrder
        cases hr : att p there s with
        | failed s' => rw [hr, ho] at answer; cases answer.1
        | tooDeep => trivial
        | matched ts next s' =>
          rw [hr] at answer adds
          obtain rfl : o = (ts, next) := Option.some.inj (ho.symm.trans answer.1)
          exact ((rest att s' follows adds.2).trans adds.1).after

theorem exists_firstOf_adds (hin : here.In source) :
    ∀ (ps : List Piece), (∀ p ∈ ps, p.rank < bound) →
    ∃ f, ∀ (att : Attempt) (s : State), Follows source att bound here → Sound source s →
      (firstOf att ps here s).Adds source s f
  | [], _ => ⟨.none, fun _ _ _ hs => ⟨(Furthest.join_none _).symm, hs⟩⟩
  | p :: ps, hb => by
      have below : Below bound here p here := .inr ⟨Nat.le_refl _, hb p List.mem_cons_self⟩
      cases ho : outcome p here with
      | none =>
        obtain ⟨f, rest⟩ := exists_firstOf_adds hin ps fun q hq => hb q (List.mem_cons_of_mem _ hq)
        refine ⟨(trail p here).join f, fun att s follows hs => ?_⟩
        have answer := follows.answers p here s hin hs.truthful
        have adds := follows.adds p here s below hin hs
        unfold firstOf
        cases hr : att p here s with
        | failed s' =>
          rw [hr] at adds
          exact (rest att s' follows adds.2).trans adds.1
        | tooDeep => trivial
        | matched ts next s' => rw [hr, ho] at answer; cases answer.1
      | some o =>
        refine ⟨trail p here, fun att s follows hs => ?_⟩
        have answer := follows.answers p here s hin hs.truthful
        have adds := follows.adds p here s below hin hs
        unfold firstOf
        cases hr : att p here s with
        | failed s' => rw [hr, ho] at answer; cases answer.1
        | tooDeep => trivial
        | matched ts next s' => rw [hr] at adds; exact adds

/-- The rounds of a repetition add the same whatever the budget for them, if it is enough. -/
theorem exists_again_adds (bound : Nat) (here : Cursor) (ps : List Piece)
    (hps : ps.all Piece.nullable = false) {there : Cursor} (hb : there.rest.length < here.rest.length ∨
      there.rest.length ≤ here.rest.length ∧ Piece.leads bound ps = true)
    (hin : there.In source) :
    ∃ f, ∀ (att : Attempt) (budget : Text) (s : State), Follows source att bound here →
      there.rest.length ≤ budget.length → Sound source s →
      (again att ps budget there s).Adds source s f := by
  generalize hn : there.rest.length = n
  induction n using Nat.strongRecOn generalizing there with
  | ind n ih =>
    subst hn
    obtain ⟨f, head⟩ := exists_inOrder_adds ps hb hin
    cases ho : outcome.inOrder ps there with
    | none =>
      refine ⟨f, fun att budget s follows _ hs => ?_⟩
      have answer := follows.answers.inOrder ps hin hs.truthful
      have adds := head att s follows hs
      unfold again
      cases hr : inOrder att ps there s with
      | failed s' => rw [hr] at adds; exact adds
      | tooDeep => trivial
      | matched ts next s' => rw [hr, ho] at answer; cases answer.1
    | some o =>
      have shrinks : o.2.rest.length < there.rest.length := (outcome_shrinks.inOrder ho).2 hps
      obtain ⟨g, rest⟩ := ih _ shrinks (.inl (by rcases hb with hb | hb <;> omega))
        (inOrder_in hin ho) rfl
      refine ⟨f.join g, fun att budget s follows hl hs => ?_⟩
      have answer := follows.answers.inOrder ps hin hs.truthful
      have adds := head att s follows hs
      unfold again
      cases hr : inOrder att ps there s with
      | failed s' => rw [hr, ho] at answer; cases answer.1
      | tooDeep => trivial
      | matched ts next s' =>
        rw [hr] at answer adds
        obtain rfl : o = (ts, next) := Option.some.inj (ho.symm.trans answer.1)
        cases budget with
        | nil => rw [List.length_nil] at hl; omega
        | cons c budget =>
          rw [List.length_cons] at hl
          exact ((rest att budget s' follows (by omega) adds.2).trans adds.1).after

theorem exists_expand_adds (hin : here.In source) {q : Production} (hq : q.leads bound = true) :
    ∃ f, ∀ (att : Attempt) (s : State), Follows source att bound here → Sound source s →
      (expand att q here s).Adds source s f := by
  cases q with
  | sequence ps => exact exists_inOrder_adds ps (.inr ⟨Nat.le_refl _, hq⟩) hin
  | choice ps => exact exists_firstOf_adds hin ps (by simpa [Production.leads] using hq)
  | maybe p =>
    simp only [Production.leads, decide_eq_true_eq] at hq
    refine ⟨trail p here, fun att s follows hs => ?_⟩
    have adds := follows.adds p here s (.inr ⟨Nat.le_refl _, hq⟩) hin hs
    simp only [expand, orNothing]
    cases hr : att p here s <;> rw [hr] at adds <;> exact adds
  | many p =>
    simp only [Production.leads, Bool.and_eq_true, decide_eq_true_eq, Bool.not_eq_true'] at hq
    obtain ⟨f, rounds⟩ := exists_again_adds bound here [p] (by simp [hq.2])
      (.inr ⟨Nat.le_refl _, by simp [Piece.leads, hq]⟩) hin
    exact ⟨f, fun att s follows hs => rounds att _ s follows (Nat.le_refl _) hs⟩
  | chain p sep =>
    simp only [Production.leads, Bool.and_eq_true, decide_eq_true_eq, Bool.not_eq_true'] at hq
    have below : Below bound here p here := .inr ⟨Nat.le_refl _, hq.1⟩
    cases ho : outcome p here with
    | none =>
      refine ⟨trail p here, fun att s follows hs => ?_⟩
      have answer := follows.answers p here s hin hs.truthful
      have adds := follows.adds p here s below hin hs
      simp only [expand, chained]
      cases hr : att p here s with
      | failed s' => rw [hr] at adds; exact adds
      | tooDeep => trivial
      | matched ts next s' => rw [hr, ho] at answer; cases answer.1
    | some o =>
      have shrinks := (outcome_shrinks _ _ _ _ ho).2 hq.2
      obtain ⟨f, rounds⟩ := exists_again_adds bound here (sep.toList ++ [p]) (by simp [hq.2])
        (.inl shrinks) (outcome_in hin ho)
      refine ⟨(trail p here).join f, fun att s follows hs => ?_⟩
      have answer := follows.answers p here s hin hs.truthful
      have adds := follows.adds p here s below hin hs
      simp only [expand, chained]
      cases hr : att p here s with
      | failed s' => rw [hr, ho] at answer; cases answer.1
      | tooDeep => trivial
      | matched ts next s' =>
        rw [hr] at answer adds
        obtain rfl : o = (ts, next) := Option.some.inj (ho.symm.trans answer.1)
        exact ((rounds att _ s' follows (Nat.le_refl _) adds.2).trans adds.1).after
  | notAhead t =>
    by_cases ht : ((afterSkip here).read t.reader).isSome
    · refine ⟨⟨here.offset, []⟩, fun att s _ hs => ?_⟩
      obtain ⟨o, ho⟩ := Option.isSome_iff_exists.1 ht
      simp only [expand, matchNotAhead, ho]
      exact ⟨rfl, hs.join _⟩
    · refine ⟨⟨(afterSkip here).offset, []⟩, fun att s _ hs => ?_⟩
      simp only [expand, matchNotAhead, Option.not_isSome_iff_eq_none.1 ht]
      exact ⟨rfl, hs.join _⟩

end Productions

/-! ### Pieces -/

theorem matchRule_adds {att : Attempt} (answers : Answers source att) (remember : Bool) {r : Rule}
    {here : Cursor} {s : State} {f : Furthest} (hin : here.In source) (hs : Sound source s)
    (adds : (expand att r.production here s).Adds source s f)
    (ht : trail (.rule r) here = Furthest.none.join f) :
    (matchRule att remember r here s).Adds source s (trail (.rule r) here) := by
  have join (g : Furthest) : g.join (trail (.rule r) here) = g.join f := by
    rw [ht, Furthest.join_none_join]
  have learn {s' : State} (h : s'.furthest = s.furthest.join f ∧ Sound source s') :
      (if remember then s'.learn r here.offset (outcome (.rule r) here).known else s').furthest =
        s.furthest.join (trail (.rule r) here) ∧
      Sound source (if remember then s'.learn r here.offset (outcome (.rule r) here).known
        else s') := by
    rw [join, ← h.1]
    split
    · exact ⟨rfl, h.2.learn hin (by rw [join, h.1, Furthest.join_self_right])⟩
    · exact ⟨rfl, h.2⟩
  have agrees := matchRule_agrees (fun p there s' _ hin' ht' => answers p there s' hin' ht') hin
    remember hs.truthful (r := r)
  rw [matchRule_of_agrees agrees]
  cases hr : expand att r.production here s with
  | tooDeep => trivial
  | failed s' => rw [hr] at adds; exact learn adds
  | matched ts there s' => rw [hr] at adds; exact learn adds

theorem matchTerminal_adds (t : Terminal) {here : Cursor} {s : State} (hs : Sound source s) :
    (matchTerminal t here s).Adds source s (trail (.term t) here) := by
  have trail_eq : trail (.term t) here = (matchTerminal t here ⟨.none, .empty⟩).furthest := rfl
  rw [trail_eq]
  unfold matchTerminal
  cases hr : (afterSkip here).read t.reader with
  | some o =>
    simp only [hr]
    exact ⟨(Furthest.join_none _).symm, hs⟩
  | none =>
    simp only [hr]
    exact ⟨(Furthest.join_none_join _ _).symm, hs.join _⟩

/-- The trail of a rule is what its production adds. -/
theorem trail_of_expand {r : Rule} {here : Cursor} {f : Furthest} (hin : here.In source)
    (adds : (expand (attempt false (size (.rule r) here)) r.production here
      ⟨.none, .empty⟩).Adds source ⟨.none, .empty⟩ f) :
    trail (.rule r) here = Furthest.none.join f := by
  have agrees := attempt_agrees false (size (.rule r) here + 1) (.rule r) here ⟨.none, .empty⟩ hin
    (Table.truthful_empty source)
  have unknown : Table.empty.find? r here.offset = none := Table.find?_empty _ _
  unfold trail
  simp only [attempt, unknown, matchRule] at agrees ⊢
  cases hr : expand (attempt false (size (.rule r) here)) r.production here ⟨.none, .empty⟩ with
  | tooDeep => rw [hr] at agrees; exact absurd agrees (Nat.not_succ_le_self _)
  | failed s' => rw [hr] at adds; exact adds.1
  | matched ts there s' => rw [hr] at adds; exact adds.1

/-- An attempt adds its trail to what is recorded before it. -/
theorem attempt_adds (remember : Bool) (depth : Nat) {p : Piece} {here : Cursor} {s : State}
    (hin : here.In source) (hs : Sound source s) :
    (attempt remember depth p here s).Adds source s (trail p here) := by
  generalize hn : size p here = n
  induction n using Nat.strongRecOn generalizing p here s remember depth with
  | ind n ih =>
    subst hn
    cases depth with
    | zero => trivial
    | succ depth =>
      cases p with
      | term t => exact matchTerminal_adds t hs
      | rule r =>
        have follows (remember : Bool) (depth : Nat) :
            Follows source (attempt remember depth) r.rank here :=
          ⟨answers_attempt remember depth, fun q there s' hb hin' hs' =>
            ih _ (size_lt_of_below hb) remember depth hin' hs' rfl⟩
        obtain ⟨f, adds⟩ := exists_expand_adds hin r.leads_production
        have ht : trail (.rule r) here = Furthest.none.join f :=
          trail_of_expand hin (adds _ _ (follows _ _) (sound_of_empty source _))
        unfold attempt
        split
        · rename_i hk
          exact ⟨(hs.trailed r here hin (by simp [hk])).symm, hs⟩
        · rename_i hk
          exact ⟨(hs.trailed r here hin (by simp [hk])).symm, hs⟩
        · exact matchRule_adds (answers_attempt remember depth) remember hin hs
            (adds _ _ (follows _ _) hs) ht

/-! ### Whole sources -/

/-- Where two settings are deep enough they come to the same verdict. -/
theorem judge_eq_judge (a b : Settings) (source : Text) :
    judge a source = .tooDeep ∨ judge b source = .tooDeep ∨ judge a source = judge b source := by
  have sound := sound_of_empty source (firstRecord source)
  have addsA := attempt_adds (p := .rule .document) a.remember a.depth (Cursor.start_in source) sound
  have addsB := attempt_adds (p := .rule .document) b.remember b.depth (Cursor.start_in source) sound
  obtain ⟨_, _, _, -, ho, ja⟩ | ⟨s, ra, ho, ja⟩ | ⟨-, ja⟩ := judge_cases a source
  · obtain ⟨_, _, _, -, ho', jb⟩ | ⟨_, -, ho', -⟩ | ⟨-, jb⟩ := judge_cases b source
    · cases ho.symm.trans ho'
      exact .inr (.inr (ja.trans jb.symm))
    · cases ho.symm.trans ho'
    · exact .inr (.inl jb)
  · obtain ⟨_, _, _, -, ho', -⟩ | ⟨t, rb, -, jb⟩ | ⟨-, jb⟩ := judge_cases b source
    · cases ho.symm.trans ho'
    · rw [State.start] at ra rb
      rw [ra] at addsA
      rw [rb] at addsB
      have furthest : s.furthest = t.furthest := addsA.1.trans addsB.1.symm
      exact .inr (.inr (by rw [ja, jb, furthest]))
    · exact .inr (.inl jb)
  · exact .inl ja

end Grammar

end SolidScript
