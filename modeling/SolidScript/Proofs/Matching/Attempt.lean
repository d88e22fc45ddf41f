import SolidScript.Proofs.Matching.Induction

/-!
# Matching — attempts and outcomes

An attempt carries a record of failures and a table of what is known, and is given up when pieces
stand too deep inside each other.  None of this changes what it finds: as long as every entry of
the table is true of the source (`Table.Truthful`), an attempt answers what the outcome is, leaves
a truthful table, and is given up only when its depth does not exceed the size of the piece
(`attempt_agrees`).

* `judge_cases`: how a source is judged, by which reply, and what comes of its document.
* `judge_eq_accepted`: the tree of an accepted source is the outcome of a document.
* `judge_of_outcome`: a source whose outcome is a tree is accepted as that tree or is too deep.
* `judge_ne_tooDeep`: deep enough settings never give a source up.
-/

namespace SolidScript

/-- What the table knows is the outcome, at every place of the source. -/
def Table.Truthful (source : Text) (t : Table) : Prop :=
  ∀ (r : Rule) (here : Cursor), here.In source →
    match t.find? r here.offset with
    | none                     => True
    | some (.matched ts there) => Grammar.outcome (.rule r) here = some (ts, there)
    | some .failed             => Grammar.outcome (.rule r) here = none

theorem Table.truthful_empty (source : Text) : Table.empty.Truthful source := fun r here _ => by
  rw [find?_empty]
  trivial

/-- A place is known by its offset. -/
theorem Cursor.In.ext {source : Text} {a b : Cursor} (ha : a.In source) (hb : b.In source)
    (h : a.offset = b.offset) : a = b := by
  cases a
  cases b
  cases h
  rw [Cursor.mk.injEq]
  exact ⟨rfl, ha.2.trans hb.2.symm⟩

namespace Grammar

/-- What is learnt of a rule at a place. -/
def Outcome.known : Outcome → Known
  | none             => .failed
  | some (ts, there) => .matched ts there

/-- A table stays truthful when it learns what a rule comes to. -/
theorem truthful_learn {source : Text} {s : State} {r : Rule}
    {here : Cursor} (ht : s.table.Truthful source) (hin : here.In source) :
    (s.learn r here.offset (outcome (.rule r) here).known).table.Truthful source := by
  intro q there hthere
  by_cases he : r = q ∧ here.offset = there.offset
  · obtain ⟨rfl, ho⟩ := he
    obtain rfl := hin.ext hthere ho
    rw [State.learn, Table.find?_insert_self]
    cases outcome (.rule r) here with
    | none => rfl
    | some o => rfl
  · rw [State.learn, Table.find?_insert_of_ne _ _ he]
    exact ht q there hthere

/-- The reply is the outcome and its table is truthful, or it was given up and `deep` holds. -/
def Reply.Agrees (source : Text) (o : Outcome) (deep : Prop) : Reply → Prop
  | .matched ts next s => o = some (ts, next) ∧ s.table.Truthful source
  | .failed s          => o = none ∧ s.table.Truthful source
  | .tooDeep           => deep

/-- What may be too deep in some case may be so in a wider one. -/
theorem Reply.Agrees.mono {source : Text} {o : Outcome} {d e : Prop} (hd : d → e) :
    ∀ {r : Reply}, r.Agrees source o d → r.Agrees source o e
  | .matched _ _ _, h => h
  | .failed _,      h => h
  | .tooDeep,       h => hd h

/-- Trees before those of a reply do not change whether it agrees. -/
theorem Reply.Agrees.after {source : Text} {o : Outcome} {d : Prop} {ts : List Tree} :
    ∀ {r : Reply}, r.Agrees source o d → (r.after ts).Agrees source (o.after ts) d
  | .matched us next s, h => by
      obtain ⟨rfl, ht⟩ := h
      exact ⟨rfl, ht⟩
  | .failed s, h => by
      obtain ⟨rfl, ht⟩ := h
      exact ⟨rfl, ht⟩
  | .tooDeep, h => h

/-! ### Productions -/

/-- Attempts at pieces that are entered below the place agree with the outcomes. -/
def Faithful (source : Text) (attempt : Attempt) (deep : Prop) (bound : Nat) (here : Cursor) :
    Prop :=
  ∀ (p : Piece) (there : Cursor) (s : State), Below bound here p there → there.In source →
    s.table.Truthful source → (attempt p there s).Agrees source (outcome p there) deep

section Productions
variable {source : Text} {attempt : Attempt} {deep : Prop} {bound : Nat} {here : Cursor}

/-- Pieces in order come to what they do without a limit, or are too deep. -/
theorem Faithful.inOrder (hf : Faithful source attempt deep bound here) :
    ∀ {ps : List Piece} {there : Cursor} {s : State},
      there.rest.length < here.rest.length ∨
        there.rest.length ≤ here.rest.length ∧ Piece.leads bound ps = true →
      there.In source → s.table.Truthful source →
      (Grammar.inOrder attempt ps there s).Agrees source (outcome.inOrder ps there) deep
  | [], _, _, _, _, ht => ⟨rfl, ht⟩
  | p :: ps, there, s, hb, hin, ht => by
      have head := hf p there s (hb.imp_right fun h => ⟨h.1, by
        have := h.2
        simp only [Piece.leads, Bool.and_eq_true, decide_eq_true_eq] at this
        exact this.1⟩) hin ht
      unfold Grammar.inOrder Run.inOrder
      cases hr : attempt p there s with
      | failed s' =>
        obtain ⟨ho, ht'⟩ := hr ▸ head
        rw [ho]
        exact ⟨rfl, ht'⟩
      | tooDeep => exact (hr ▸ head : Reply.Agrees _ _ _ .tooDeep)
      | matched ts next s' =>
        obtain ⟨ho, ht'⟩ := hr ▸ head
        rw [ho]
        have shrinks := outcome_shrinks _ _ _ _ ho
        refine (hf.inOrder ?_ (outcome_in hin ho) ht').after
        rcases hb with hb | ⟨hle, hl⟩
        · exact .inl (Nat.lt_of_le_of_lt shrinks.1 hb)
        · simp only [Piece.leads, Bool.and_eq_true, Bool.or_eq_true, Bool.not_eq_true'] at hl
          rcases hl.2 with hn | hl
          · exact .inl (Nat.lt_of_lt_of_le (shrinks.2 hn) hle)
          · exact .inr ⟨Nat.le_trans shrinks.1 hle, hl⟩

/-- A choice comes to what it does without a limit, or is too deep. -/
theorem Faithful.firstOf (hf : Faithful source attempt deep bound here) (hin : here.In source) :
    ∀ {ps : List Piece} {s : State}, (∀ p ∈ ps, p.rank < bound) → s.table.Truthful source →
      (Grammar.firstOf attempt ps here s).Agrees source (outcome.firstOf ps here) deep
  | [], _, _, ht => ⟨rfl, ht⟩
  | p :: ps, s, hb, ht => by
      have head := hf p here s (.inr ⟨Nat.le_refl _, hb p List.mem_cons_self⟩) hin ht
      unfold Grammar.firstOf Run.firstOf
      cases hr : attempt p here s with
      | failed s' =>
        obtain ⟨ho, ht'⟩ := hr ▸ head
        rw [ho]
        exact hf.firstOf hin (fun q hq => hb q (List.mem_cons_of_mem _ hq)) ht'
      | tooDeep => exact (hr ▸ head : Reply.Agrees _ _ _ .tooDeep)
      | matched ts next s' =>
        obtain ⟨ho, ht'⟩ := hr ▸ head
        rw [ho]
        exact ⟨rfl, ht'⟩

/-- A repetition comes to what it does without a limit, or is too deep. -/
theorem Faithful.again (hf : Faithful source attempt deep bound here) {ps : List Piece}
    (hps : ps.all Piece.nullable = false) :
    ∀ {budget : Text} {there : Cursor} {s : State},
      there.rest.length ≤ budget.length →
      there.rest.length < here.rest.length ∨
        there.rest.length ≤ here.rest.length ∧ Piece.leads bound ps = true →
      there.In source → s.table.Truthful source →
      (Grammar.again attempt ps budget there s).Agrees source (some (outcome.loop ps there)) deep
  | budget, there, s, hl, hb, hin, ht => by
      have head := hf.inOrder hb hin ht (s := s)
      unfold Grammar.again
      cases hr : Grammar.inOrder attempt ps there s with
      | failed s' =>
        obtain ⟨ho, ht'⟩ := hr ▸ head
        rw [loop_of_none ho]
        exact ⟨rfl, ht'⟩
      | tooDeep => exact (hr ▸ head : Reply.Agrees _ _ _ .tooDeep)
      | matched ts next s' =>
        obtain ⟨ho, ht'⟩ := hr ▸ head
        have shrinks := (outcome_shrinks.inOrder ho).2 hps
        rw [loop_of_some hps ho]
        cases budget with
        | nil =>
          rw [List.length_nil] at hl
          omega
        | cons c budget =>
          rw [List.length_cons] at hl
          have shorter : next.rest.length ≤ budget.length := by omega
          refine (hf.again hps shorter (.inl ?_) ?_ ht').after
          · rcases hb with hb | hb <;> omega
          · exact inOrder_in hin ho

/-- A terminal comes to what it does without a limit. -/
theorem matchTerminal_agrees {source : Text} {deep : Prop} (t : Terminal) (here : Cursor)
    {s : State} (ht : s.table.Truthful source) :
    (matchTerminal t here s).Agrees source (Run.terminal t here) deep := by
  unfold matchTerminal Run.terminal
  cases hr : (afterSkip here).read t.reader with
  | some o => simp only [hr]; exact ⟨rfl, ht⟩
  | none => simp only [hr]; exact ⟨rfl, ht⟩

/-- A production comes to what it does without a limit, or is too deep. -/
theorem Faithful.expand (hf : Faithful source attempt deep bound here) (hin : here.In source)
    {q : Production} (hq : q.leads bound = true) {s : State} (ht : s.table.Truthful source) :
    (Grammar.expand attempt q here s).Agrees source (outcome.expand q here) deep := by
  cases q with
  | sequence ps => exact hf.inOrder (.inr ⟨Nat.le_refl _, hq⟩) hin ht
  | choice ps => exact hf.firstOf hin (by simpa [Production.leads] using hq) ht
  | maybe p =>
    simp only [Production.leads, decide_eq_true_eq] at hq
    have head := hf p here s (.inr ⟨Nat.le_refl _, hq⟩) hin ht
    simp only [Grammar.expand, Run.expand]
    unfold orNothing
    cases hr : attempt p here s with
    | failed s' =>
      obtain ⟨ho, ht'⟩ := hr ▸ head
      rw [ho]
      exact ⟨rfl, ht'⟩
    | tooDeep => exact (hr ▸ head : Reply.Agrees _ _ _ .tooDeep)
    | matched ts next s' =>
      obtain ⟨ho, ht'⟩ := hr ▸ head
      rw [ho]
      exact ⟨rfl, ht'⟩
  | many p =>
    simp only [Production.leads, Bool.and_eq_true, decide_eq_true_eq, Bool.not_eq_true'] at hq
    exact hf.again (by simp [hq.2]) (Nat.le_refl _)
      (.inr ⟨Nat.le_refl _, by simp [Piece.leads, hq]⟩) hin ht
  | chain p sep =>
    simp only [Production.leads, Bool.and_eq_true, decide_eq_true_eq, Bool.not_eq_true'] at hq
    have head := hf p here s (.inr ⟨Nat.le_refl _, hq.1⟩) hin ht
    simp only [Grammar.expand, Run.expand]
    unfold chained
    cases hr : attempt p here s with
    | failed s' =>
      obtain ⟨ho, ht'⟩ := hr ▸ head
      rw [ho]
      exact ⟨rfl, ht'⟩
    | tooDeep => exact (hr ▸ head : Reply.Agrees _ _ _ .tooDeep)
    | matched ts next s' =>
      obtain ⟨ho, ht'⟩ := hr ▸ head
      rw [ho]
      have shrinks := (outcome_shrinks _ _ _ _ ho).2 hq.2
      exact (hf.again (by simp [hq.2]) (Nat.le_refl _) (.inl shrinks) (outcome_in hin ho) ht').after
  | notAhead t =>
    simp only [Grammar.expand, Run.expand]
    unfold matchNotAhead Run.terminal
    cases hr : (afterSkip here).read t.reader with
    | some o => simp only [hr]; exact ⟨rfl, ht⟩
    | none => simp only [hr]; exact ⟨rfl, ht⟩

end Productions

/-! ### Pieces -/

/-- A rule comes to what it does without a limit, or is too deep, whatever is remembered. -/
theorem matchRule_agrees {source : Text} {attempt : Attempt} {deep : Prop} {r : Rule}
    {here : Cursor} (hf : Faithful source attempt deep r.rank here) (hin : here.In source)
    (remember : Bool) {s : State} (ht : s.table.Truthful source) :
    (matchRule attempt remember r here s).Agrees source (outcome (.rule r) here) deep := by
  have expansion := hf.expand hin r.leads_production ht
  have learn (s' : State) (ht' : s'.table.Truthful source) :
      (if remember then s'.learn r here.offset (outcome (.rule r) here).known
        else s').table.Truthful source := by
    split
    · exact truthful_learn ht' hin
    · exact ht'
  unfold matchRule
  cases hr : expand attempt r.production here s with
  | tooDeep => exact (hr ▸ expansion : Reply.Agrees _ _ _ .tooDeep)
  | failed s' =>
    obtain ⟨he, ht'⟩ := hr ▸ expansion
    have ho : outcome (.rule r) here = none := by rw [outcome_rule, he]; rfl
    exact ⟨ho, by simpa only [ho, Outcome.known] using learn s' ht'⟩
  | matched ts there s' =>
    obtain ⟨he, ht'⟩ := hr ▸ expansion
    have ho : outcome (.rule r) here = some (Tree.gather r ts, there) := by
      rw [outcome_rule, he]; rfl
    exact ⟨ho, by simpa only [ho, Outcome.known] using learn s' ht'⟩

/-- An attempt answers what the outcome is, and is given up only where it is not deep enough. -/
theorem attempt_agrees {source : Text} (remember : Bool) :
    ∀ (depth : Nat) (p : Piece) (here : Cursor) (s : State), here.In source →
      s.table.Truthful source →
      (attempt remember depth p here s).Agrees source (outcome p here) (depth ≤ size p here)
  | 0, _, _, _, _, _ => Nat.zero_le _
  | depth + 1, .term t, here, s, _, ht => matchTerminal_agrees t here ht
  | depth + 1, .rule r, here, s, hin, ht => by
      unfold attempt
      have entry := ht r here hin
      split <;> rename_i hk <;> rw [hk] at entry
      · exact ⟨entry, ht⟩
      · exact ⟨entry, ht⟩
      · refine matchRule_agrees (fun p there s' hb hin' ht' => ?_) hin remember ht
        refine (attempt_agrees remember depth p there s' hin' ht').mono fun hd => ?_
        have := size_lt_of_below hb
        omega

/-! ### Whole sources -/

/-- The document at the start of a source. -/
abbrev ofSource (source : Text) : Outcome := outcome (.rule .document) (.start source)

/-- Matching a document comes to its outcome, unless the depth is below the measure. -/
theorem document_agrees (settings : Settings) (source : Text) :
    (attempt settings.remember settings.depth (.rule .document) (.start source)
      (.start source)).Agrees source (ofSource source)
        (settings.depth ≤ size (.rule .document) (.start source)) :=
  attempt_agrees _ _ _ _ _ (Cursor.start_in source) (Table.truthful_empty source)

/-- A document leaves one tree. -/
theorem ofSource_eq_singleton {source : Text} {ts : List Tree} {next : Cursor}
    (h : ofSource source = some (ts, next)) : ∃ t, ts = [t] := by
  rw [ofSource, outcome_rule] at h
  obtain ⟨⟨us, m⟩, -, he⟩ := Option.map_eq_some_iff.1 h
  cases he
  exact ⟨_, rfl⟩

/-- A source is accepted where its document matches, refused where it fails, with what the reply
recorded, and given up where the depth does not exceed the size of the document. -/
theorem judge_cases (settings : Settings) (source : Text) :
    (∃ tree next s, attempt settings.remember settings.depth (.rule .document) (.start source)
        (.start source) = .matched [tree] next s ∧ ofSource source = some ([tree], next) ∧
          judge settings source = .accepted tree) ∨
      (∃ s, attempt settings.remember settings.depth (.rule .document) (.start source)
        (.start source) = .failed s ∧ ofSource source = none ∧
          judge settings source = .refused s.furthest) ∨
      (settings.depth ≤ size (.rule .document) (.start source) ∧
        judge settings source = .tooDeep) := by
  have agrees := document_agrees settings source
  unfold judge
  cases hr : attempt settings.remember settings.depth (.rule .document) (.start source)
      (.start source) with
  | matched ts next s =>
    rw [hr] at agrees
    obtain ⟨tree, rfl⟩ := ofSource_eq_singleton agrees.1
    exact .inl ⟨tree, next, s, rfl, agrees.1, rfl⟩
  | failed s =>
    rw [hr] at agrees
    exact .inr (.inl ⟨s, rfl, agrees.1, rfl⟩)
  | tooDeep =>
    rw [hr] at agrees
    exact .inr (.inr ⟨agrees, rfl⟩)

/-- A source that is accepted has its tree for outcome. -/
theorem judge_eq_accepted {settings : Settings} {source : Text} {tree : Tree}
    (h : judge settings source = .accepted tree) :
    ∃ next, ofSource source = some ([tree], next) := by
  obtain ⟨_, next, _, -, ho, hj⟩ | ⟨_, -, -, hj⟩ | ⟨-, hj⟩ := judge_cases settings source
  · cases h.symm.trans hj
    exact ⟨next, ho⟩
  · cases h.symm.trans hj
  · cases h.symm.trans hj

/-- A source is refused when its document fails. -/
theorem failed_of_refused {settings : Settings} {source : Text} {f : Furthest}
    (h : judge settings source = .refused f) :
    ∃ s, attempt settings.remember settings.depth (.rule .document) (.start source)
      (.start source) = .failed s ∧ s.furthest = f := by
  obtain ⟨_, _, _, -, -, hj⟩ | ⟨s, hs, -, hj⟩ | ⟨-, hj⟩ := judge_cases settings source
  · cases h.symm.trans hj
  · cases h.symm.trans hj
    exact ⟨s, hs, rfl⟩
  · cases h.symm.trans hj

/-- A source with an outcome is accepted with its tree, or found too deep. -/
theorem judge_of_outcome (settings : Settings) {source : Text} {tree : Tree} {next : Cursor}
    (h : ofSource source = some ([tree], next)) :
    judge settings source = .accepted tree ∨ judge settings source = .tooDeep := by
  obtain ⟨_, _, _, -, ho, hj⟩ | ⟨_, -, ho, -⟩ | ⟨-, hj⟩ := judge_cases settings source
  · cases h.symm.trans ho
    exact .inl hj
  · cases h.symm.trans ho
  · exact .inr hj

/-- Settings that are deep enough give no source up. -/
theorem judge_ne_tooDeep {settings : Settings} {source : Text}
    (hd : size (.rule .document) (.start source) < settings.depth) :
    judge settings source ≠ .tooDeep := fun h => by
  obtain ⟨_, _, _, -, -, hj⟩ | ⟨_, -, -, hj⟩ | ⟨hle, -⟩ := judge_cases settings source
  · cases h.symm.trans hj
  · cases h.symm.trans hj
  · exact absurd hle (Nat.not_le_of_lt hd)

end Grammar

end SolidScript
