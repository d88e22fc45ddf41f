import SolidScript.Proofs.Matching.Attempt
import SolidScript.Proofs.Matching.Building

/-!
# Matching — what an attempt visits

A production that is tried at a place has its pieces tried there and at the places that the pieces
before them lead to, an alternative only where those before it fail (`Enters`); and so an attempt
visits pieces at places (`Visits`).  What an
attempt comes to depends on what the terminals do where it visits them, and on nothing else:

* `Mirror.attempt`: attempts in two sources stay in step, depth and table included, where places
  correspond and the terminals that are visited do the same at them.
* `attempt_preserves`: what no visited terminal and no visited rule changes holds of the state in
  the end.
-/

namespace SolidScript

/-- The same is known, up to places that correspond. -/
def Known.Like (R : Cursor → Cursor → Prop) : Known → Known → Prop
  | .matched _ a, .matched _ b => R a b
  | .failed,      .failed      => True
  | _,            _            => False

namespace Grammar

/-- A production tried at a place has a piece tried at another. -/
inductive Enters : Production → Cursor → Piece → Cursor → Prop where
  | sequence {here there : Cursor} {before after : List Piece} {p : Piece} {us : List Tree}
      (h : outcome.inOrder before here = some (us, there)) :
      Enters (.sequence (before ++ p :: after)) here p there
  | choice {here : Cursor} {before after : List Piece} {p : Piece}
      (h : ∀ q ∈ before, outcome q here = none) :
      Enters (.choice (before ++ p :: after)) here p here
  | maybe (p : Piece) (here : Cursor) : Enters (.maybe p) here p here
  | many {here there : Cursor} {p : Piece} {us : List Tree} (h : Repeats [p] here us there) :
      Enters (.many p) here p there
  | chain (p : Piece) (s : Option Piece) (here : Cursor) : Enters (.chain p s) here p here
  | link {here first there next : Cursor} {p q : Piece} {s : Option Piece}
      {before after : List Piece} {us vs ws : List Tree} (h : outcome p here = some (us, first))
      (k : Repeats (s.toList ++ [p]) first vs there) (l : s.toList ++ [p] = before ++ q :: after)
      (m : outcome.inOrder before there = some (ws, next)) : Enters (.chain p s) here q next

/-- An attempt at the piece `p` at `here` visits a piece at a place. -/
inductive Visits (p : Piece) (here : Cursor) : Piece → Cursor → Prop where
  | start : Visits p here p here
  | enter {r : Rule} {q : Piece} {there next : Cursor} (h : Visits p here (.rule r) there)
      (e : Enters r.production there q next) : Visits p here q next

/-! ### Attempts in step -/

/-- The replies are the same, up to places and states that correspond. -/
def Reply.Like (R : Cursor → Cursor → Prop) (S : State → State → Prop) : Reply → Reply → Prop
  | .matched _ a s, .matched _ b s' => R a b ∧ S s s'
  | .failed s,      .failed s'      => S s s'
  | .tooDeep,       .tooDeep        => True
  | _,              _               => False

theorem Reply.Like.after {R : Cursor → Cursor → Prop} {S : State → State → Prop} {ts us : List Tree} :
    ∀ {a b : Reply}, a.Like R S b → (a.after ts).Like R S (b.after us)
  | .matched _ _ _, .matched _ _ _, h => h
  | .failed _,      .failed _,      h => h
  | .tooDeep,       .tooDeep,       _ => trivial

/-- Replies that are the same both match, both fail or are both too deep. -/
theorem Reply.Like.cases {R : Cursor → Cursor → Prop} {S : State → State → Prop} :
    ∀ {x y : Reply}, x.Like R S y →
      (∃ ts us a b s s', x = .matched ts a s ∧ y = .matched us b s' ∧ R a b ∧ S s s') ∨
        (∃ s s', x = .failed s ∧ y = .failed s' ∧ S s s') ∨ x = .tooDeep ∧ y = .tooDeep
  | .matched _ _ _, .matched _ _ _, h => .inl ⟨_, _, _, _, _, _, rfl, rfl, h.1, h.2⟩
  | .failed _,      .failed _,      h => .inr (.inl ⟨_, _, rfl, rfl, h⟩)
  | .tooDeep,       .tooDeep,       _ => .inr (.inr ⟨rfl, rfl⟩)

/-- Places and states of two sources correspond, and so does what becomes of the pieces that are
tried in the first one. -/
structure Mirror (source source' : Text) (V : Piece → Cursor → Prop) (R : Cursor → Cursor → Prop)
    (S : State → State → Prop) : Prop where
  inside : ∀ {a b}, R a b → a.In source ∧ b.In source'
  truthful : ∀ {s s'}, S s s' → s.table.Truthful source ∧ s'.table.Truthful source'
  enter : ∀ {r a p there}, V (.rule r) a → Enters r.production a p there → V p there
  terminal : ∀ {t a b s s'}, V (.term t) a → R a b → S s s' →
    (matchTerminal t a s).Like R S (matchTerminal t b s')
  notAhead : ∀ {r t a b s s'}, V (.rule r) a → r.production = .notAhead t → R a b → S s s' →
    (matchNotAhead t a s).Like R S (matchNotAhead t b s')
  known : ∀ {r a b s s'}, V (.rule r) a → R a b → S s s' →
    Option.Rel (Known.Like R) (s.table.find? r a.offset) (s'.table.find? r b.offset)
  learn : ∀ {r a b s s'}, V (.rule r) a → R a b → S s s' →
    Known.Like R (outcome (.rule r) a).known (outcome (.rule r) b).known →
    S (s.learn r a.offset (outcome (.rule r) a).known)
      (s'.learn r b.offset (outcome (.rule r) b).known)

section Mirror
variable {source source' : Text} {V : Piece → Cursor → Prop} {R : Cursor → Cursor → Prop}
  {S : State → State → Prop} {att : Attempt}

/-- All pieces that are tried in order from the place on are among those in question. -/
def Covered (V : Piece → Cursor → Prop) (ps : List Piece) (here : Cursor) : Prop :=
  ∀ ⦃before : List Piece⦄ ⦃p : Piece⦄ ⦃after : List Piece⦄ ⦃us : List Tree⦄ ⦃there : Cursor⦄,
    ps = before ++ p :: after → outcome.inOrder before here = some (us, there) → V p there

theorem Covered.head {p : Piece} {ps : List Piece} {here : Cursor} (h : Covered V (p :: ps) here) :
    V p here := @h [] _ _ _ _ rfl rfl

theorem Covered.tail {p : Piece} {ps : List Piece} {here there : Cursor} {us : List Tree}
    (h : Covered V (p :: ps) here) (hp : outcome p here = some (us, there)) : Covered V ps there :=
  fun before _ _ _ _ he hb => @h (p :: before) _ _ _ _ (by rw [he, List.cons_append])
    (inOrder_cons hp hb)

/-- The attempts answer what the outcomes are. -/
def Answers (source : Text) (att : Attempt) : Prop :=
  ∀ (p : Piece) (here : Cursor) (s : State), here.In source → s.table.Truthful source →
    (att p here s).Agrees source (outcome p here) True

theorem leads_of_rank : ∀ ps : List Piece, Piece.leads 32 ps = true
  | [] => rfl
  | p :: ps => by simp [Piece.leads, p.rank_lt, leads_of_rank ps]

theorem Answers.inOrder (h : Answers source att) (ps : List Piece) {here : Cursor} {s : State}
    (hin : here.In source) (ht : s.table.Truthful source) :
    (Grammar.inOrder att ps here s).Agrees source (outcome.inOrder ps here) True :=
  Faithful.inOrder (fun p there s _ hin' ht' => h p there s hin' ht')
    (.inr ⟨Nat.le_refl here.rest.length, leads_of_rank ps⟩) hin ht

/-- The attempts at the pieces in question stay in step. -/
def InStep (V : Piece → Cursor → Prop) (R : Cursor → Cursor → Prop) (S : State → State → Prop)
    (att : Attempt) : Prop :=
  ∀ ⦃p : Piece⦄ ⦃a b : Cursor⦄ ⦃s s' : State⦄, V p a → R a b → S s s' →
    (att p a s).Like R S (att p b s')

theorem InStep.inOrder (h : InStep V R S att) (m : Mirror source source' V R S)
    (ha : Answers source att) :
    ∀ {ps : List Piece} {a b : Cursor} {s s' : State}, Covered V ps a → R a b → S s s' →
      (Grammar.inOrder att ps a s).Like R S (Grammar.inOrder att ps b s')
  | [], _, _, _, _, _, hr, hs => ⟨hr, hs⟩
  | p :: ps, a, b, s, s', hc, hr, hs => by
      have answer := ha p a s (m.inside hr).1 (m.truthful hs).1
      unfold Grammar.inOrder
      obtain ⟨_, _, _, _, _, _, hx, hy, hr', hs'⟩ | ⟨_, _, hx, hy, hs'⟩ | ⟨hx, hy⟩ :=
        (h hc.head hr hs).cases
      · rw [hx] at answer
        rw [hx, hy]
        exact (h.inOrder m ha (hc.tail answer.1) hr' hs').after
      · rw [hx, hy]
        exact hs'
      · rw [hx, hy]
        trivial

theorem InStep.firstOf (h : InStep V R S att) (m : Mirror source source' V R S)
    (ha : Answers source att) {a b : Cursor} (hr : R a b) :
    ∀ {ps : List Piece} {s s' : State},
      (∀ ⦃before : List Piece⦄ ⦃p : Piece⦄ ⦃after : List Piece⦄, ps = before ++ p :: after →
        (∀ q ∈ before, outcome q a = none) → V p a) → S s s' →
      (Grammar.firstOf att ps a s).Like R S (Grammar.firstOf att ps b s')
  | [], _, _, _, hs => hs
  | p :: ps, s, s', hv, hs => by
      have answer := ha p a s (m.inside hr).1 (m.truthful hs).1
      unfold Grammar.firstOf
      obtain ⟨_, _, _, _, _, _, hx, hy, hr', hs'⟩ | ⟨_, _, hx, hy, hs'⟩ | ⟨hx, hy⟩ :=
        (h (@hv [] _ _ rfl (by simp)) hr hs).cases
      · rw [hx, hy]
        exact ⟨hr', hs'⟩
      · rw [hx] at answer
        rw [hx, hy]
        refine h.firstOf m ha hr (fun before q after he hb => ?_) hs'
        exact @hv (p :: before) _ _ (by rw [he, List.cons_append])
          (List.forall_mem_cons.2 ⟨answer.1, hb⟩)
      · rw [hx, hy]
        trivial

theorem InStep.orNothing (h : InStep V R S att) {a b : Cursor} {p : Piece} {s s' : State}
    (hv : V p a) (hr : R a b) (hs : S s s') :
    (Grammar.orNothing att p a s).Like R S (Grammar.orNothing att p b s') := by
  unfold Grammar.orNothing
  obtain ⟨_, _, _, _, _, _, hx, hy, hr', hs'⟩ | ⟨_, _, hx, hy, hs'⟩ | ⟨hx, hy⟩ := (h hv hr hs).cases
  · rw [hx, hy]
    exact ⟨hr', hs'⟩
  · rw [hx, hy]
    exact ⟨hr, hs'⟩
  · rw [hx, hy]
    trivial

theorem InStep.again (h : InStep V R S att) (m : Mirror source source' V R S)
    (ha : Answers source att) (ha' : Answers source' att) {ps : List Piece}
    (hps : ps.all Piece.nullable = false) :
    ∀ {budget budget' : Text} {a b : Cursor} {s s' : State}, a.rest.length ≤ budget.length →
      b.rest.length ≤ budget'.length →
      (∀ {us : List Tree} {there : Cursor}, Repeats ps a us there → Covered V ps there) →
      R a b → S s s' →
      (Grammar.again att ps budget a s).Like R S (Grammar.again att ps budget' b s')
  | budget, budget', a, b, s, s', hl, hl', hc, hr, hs => by
      have answer := ha.inOrder ps (m.inside hr).1 (m.truthful hs).1
      have answer' := ha'.inOrder ps (m.inside hr).2 (m.truthful hs).2
      unfold Grammar.again
      obtain ⟨_, _, _, _, _, _, hx, hy, hr', hs'⟩ | ⟨_, _, hx, hy, hs'⟩ | ⟨hx, hy⟩ :=
        (h.inOrder m ha (hc (.nil a)) hr hs).cases
      · rw [hx] at answer
        rw [hy] at answer'
        rw [hx, hy]
        have shrinks := (outcome_shrinks.inOrder answer.1).2 hps
        have shrinks' := (outcome_shrinks.inOrder answer'.1).2 hps
        cases budget with
        | nil => rw [List.length_nil] at hl; omega
        | cons c budget =>
          cases budget' with
          | nil => rw [List.length_nil] at hl'; omega
          | cons c' budget' =>
            rw [List.length_cons] at hl hl'
            exact (h.again m ha ha' hps (by omega) (by omega) (fun k => hc (.cons answer.1 k)) hr'
              hs').after
      · rw [hx, hy]
        exact ⟨hr, hs'⟩
      · rw [hx, hy]
        trivial

theorem InStep.expand (h : InStep V R S att) (m : Mirror source source' V R S)
    (ha : Answers source att) (ha' : Answers source' att) {r : Rule} {a b : Cursor} {s s' : State}
    (hv : V (.rule r) a) (hr : R a b) (hs : S s s') :
    (Grammar.expand att r.production a s).Like R S (Grammar.expand att r.production b s') := by
  have leads := r.leads_production
  cases hq : r.production with
  | sequence ps =>
    refine h.inOrder m ha (fun before p after us there he hb => m.enter hv ?_) hr hs
    rw [hq, he]
    exact .sequence hb
  | choice ps =>
    refine h.firstOf m ha hr (fun before p after he hb => m.enter hv ?_) hs
    rw [hq, he]
    exact .choice hb
  | maybe p => exact h.orNothing (m.enter hv (hq ▸ .maybe p a)) hr hs
  | many p =>
    simp only [hq, Production.leads, Bool.and_eq_true, Bool.not_eq_true'] at leads
    refine h.again m ha ha' (by simp [leads.2]) (Nat.le_refl _) (Nat.le_refl _) ?_ hr hs
    intro us there k before q after vs next he hb
    obtain ⟨rfl, rfl, rfl⟩ : before = [] ∧ p = q ∧ after = [] := by
      cases before with
      | nil => simpa using he
      | cons c before => simp at he
    cases hb
    exact m.enter hv (hq ▸ .many k)
  | chain p sep =>
    simp only [hq, Production.leads, Bool.and_eq_true, Bool.not_eq_true'] at leads
    have first : V p a := m.enter hv (hq ▸ .chain p sep a)
    have answer := ha p a s (m.inside hr).1 (m.truthful hs).1
    simp only [Grammar.expand]
    unfold chained
    obtain ⟨_, _, _, _, _, _, hx, hy, hr', hs'⟩ | ⟨_, _, hx, hy, hs'⟩ | ⟨hx, hy⟩ :=
      (h first hr hs).cases
    · rw [hx] at answer
      rw [hx, hy]
      refine (h.again m ha ha' (by simp [leads.2]) (Nat.le_refl _) (Nat.le_refl _) ?_ hr'
        hs').after
      exact fun k before q after vs next he hb => m.enter hv (hq ▸ .link answer.1 k he hb)
    · rw [hx, hy]
      exact hs'
    · rw [hx, hy]
      trivial
  | notAhead t => exact m.notAhead hv hq hr hs

theorem answers_attempt (remember : Bool) (depth : Nat) :
    Answers source (Grammar.attempt remember depth) := fun p here s hin ht =>
  (attempt_agrees remember depth p here s hin ht).mono fun _ => trivial

/-- What a rule comes to is learnt when its production has been tried. -/
theorem matchRule_of_agrees {att : Attempt} {remember : Bool} {r : Rule} {here : Cursor} {s : State}
    (h : (matchRule att remember r here s).Agrees source (outcome (.rule r) here) True) :
    matchRule att remember r here s =
      match expand att r.production here s with
      | .tooDeep             => .tooDeep
      | .failed s'           => .failed
          (if remember then s'.learn r here.offset (outcome (.rule r) here).known else s')
      | .matched ts there s' => .matched (Tree.gather r ts) there
          (if remember then s'.learn r here.offset (outcome (.rule r) here).known else s') := by
  unfold matchRule at h ⊢
  cases hx : expand att r.production here s <;> rw [hx] at h
  · rw [h.1]; rfl
  · rw [h.1]; rfl

/-- Attempts at pieces in question stay in step. -/
theorem Mirror.attempt (m : Mirror source source' V R S) (remember : Bool) :
    ∀ depth : Nat, InStep V R S (Grammar.attempt remember depth)
  | 0, _, _, _, _, _, _, _, _ => trivial
  | depth + 1, .term t, a, b, s, s', hv, hr, hs => m.terminal hv hr hs
  | depth + 1, .rule r, a, b, s, s', hv, hr, hs => by
      have known := m.known hv hr hs
      have expansion := InStep.expand (m.attempt remember depth) m (answers_attempt remember depth)
        (answers_attempt remember depth) hv hr hs
      have answer := answers_attempt remember (depth + 1) (.rule r) a s (m.inside hr).1
        (m.truthful hs).1
      have answer' := answers_attempt remember (depth + 1) (.rule r) b s' (m.inside hr).2
        (m.truthful hs).2
      unfold Grammar.attempt at answer answer' ⊢
      cases hx : s.table.find? r a.offset with
      | some k =>
        rw [hx] at known
        cases hy : s'.table.find? r b.offset with
        | none => rw [hy] at known; cases known
        | some k' =>
          rw [hy] at known
          cases known with
          | some same =>
            cases k <;> cases k' <;> first | exact same.elim | exact ⟨same, hs⟩ | exact hs
      | none =>
        rw [hx] at known answer
        cases hy : s'.table.find? r b.offset with
        | some k' => rw [hy] at known; cases known
        | none =>
          rw [hy] at answer'
          simp only at answer answer' ⊢
          have learnt {t t' : State} (h : Known.Like R (outcome (.rule r) a).known
              (outcome (.rule r) b).known) (ht : S t t') :
              S (if remember then t.learn r a.offset (outcome (.rule r) a).known else t)
                (if remember then t'.learn r b.offset (outcome (.rule r) b).known else t') := by
            cases remember with
            | false => exact ht
            | true => exact m.learn hv hr ht h
          rw [matchRule_of_agrees answer, matchRule_of_agrees answer']
          rw [matchRule_of_agrees answer] at answer
          rw [matchRule_of_agrees answer'] at answer'
          obtain ⟨_, _, _, _, _, _, hx, hy, hr', hs'⟩ | ⟨_, _, hx, hy, hs'⟩ | ⟨hx, hy⟩ :=
            expansion.cases
          · rw [hx] at answer ⊢
            rw [hy] at answer' ⊢
            refine ⟨hr', learnt ?_ hs'⟩
            rw [answer.1, answer'.1]
            exact hr'
          · rw [hx] at answer ⊢
            rw [hy] at answer' ⊢
            refine learnt ?_ hs'
            rw [answer.1, answer'.1]
            trivial
          · rw [hx, hy]
            trivial

end Mirror

/-! ### What attempts preserve -/

/-- The state that the reply carries has the property. -/
def Reply.Keeps (I : State → Prop) : Reply → Prop
  | .matched _ _ s => I s
  | .failed s      => I s
  | .tooDeep       => True

/-- What no visited terminal that is missed, no visited look ahead and nothing that is learnt of a
visited rule changes, holds in the end. -/
theorem attempt_preserves {source : Text} {I : State → Prop} {p : Piece} {here : Cursor}
    (miss : ∀ {t there s}, Visits p here (.term t) there → Run.terminal t there = none → I s →
      I (s.miss (afterSkip there).offset t))
    (notAhead : ∀ {r t there s}, Visits p here (.rule r) there → r.production = .notAhead t → I s →
      I (s.reach (if (Run.terminal t there).isSome then there.offset
        else (afterSkip there).offset)))
    (learn : ∀ {r there s}, Visits p here (.rule r) there → I s →
      I (s.learn r there.offset (outcome (.rule r) there).known))
    (remember : Bool) (depth : Nat) {s : State} (hin : here.In source)
    (ht : s.table.Truthful source) (hs : I s) :
    (attempt remember depth p here s).Keeps I := by
  have step : Mirror source source (Visits p here) (fun a b => a = b ∧ a.In source)
      (fun s s' => s = s' ∧ s.table.Truthful source ∧ I s) :=
    { inside := by rintro a _ ⟨rfl, hin⟩; exact ⟨hin, hin⟩
      truthful := by rintro s _ ⟨rfl, ht, -⟩; exact ⟨ht, ht⟩
      enter := .enter
      terminal := by
        rintro t a _ s _ hv ⟨rfl, hin⟩ ⟨rfl, ht, hs⟩
        unfold matchTerminal
        cases hr : (afterSkip a).read t.reader with
        | some o =>
          simp only [hr]
          exact ⟨⟨rfl, Cursor.read_in t.splits_reader (afterSkip_in hin) hr⟩, rfl, ht, hs⟩
        | none =>
          simp only [hr]
          exact ⟨rfl, ht, miss hv (by rw [Run.terminal, hr]; rfl) hs⟩
      notAhead := by
        rintro r t a _ s _ hv hq ⟨rfl, hin⟩ ⟨rfl, ht, hs⟩
        have kept := notAhead hv hq hs
        unfold matchNotAhead
        cases hr : (afterSkip a).read t.reader with
        | some o =>
          simp only [hr]
          exact ⟨rfl, ht, by simpa [Run.terminal, hr] using kept⟩
        | none =>
          simp only [hr]
          exact ⟨⟨rfl, hin⟩, rfl, ht, by simpa [Run.terminal, hr] using kept⟩
      known := by
        rintro r a _ s _ - ⟨rfl, hin⟩ ⟨rfl, ht, -⟩
        have entry := ht r a hin
        cases hx : s.table.find? r a.offset with
        | none => exact .none
        | some k =>
          rw [hx] at entry
          cases k with
          | failed => exact .some trivial
          | matched ts next => exact .some ⟨rfl, outcome_in hin entry⟩
      learn := by
        rintro r a _ s _ hv ⟨rfl, hin⟩ ⟨rfl, ht, hs⟩ -
        exact ⟨rfl, truthful_learn ht hin, learn hv hs⟩ }
  have like := step.attempt remember depth .start ⟨rfl, hin⟩ ⟨rfl, ht, hs⟩
  cases hr : attempt remember depth p here s <;> rw [hr] at like
  · exact like.2.2.2
  · exact like.2.2
  · trivial

end Grammar

end SolidScript
