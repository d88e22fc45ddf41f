import SolidScript.Proofs.Matching.Visits

/-!
# Matching — tables in step

Attempts in two sources stay in step when the terminals that the first visits do the same in the
second (`SameTerminal`): then the tables of the two stay alike, and each rule is tried in both or
known in both.

* `mirror_of_same`: terminals that do the same are all that attempts in step need.
* `judge_eq_tooDeep_iff`: a source is too deep when the loop over its statements is.
-/

namespace SolidScript.Grammar

variable {source source' : Text} {V : Piece → Cursor → Prop} {R : Cursor → Cursor → Prop}
  {Free : Nat → Prop}

/-- The terminal does the same at both places, up to places that correspond. -/
def SameTerminal (R : Cursor → Cursor → Prop) (t : Terminal) (a b : Cursor) : Prop :=
  Option.Rel (fun o o' => R o.2 o'.2) (Run.terminal t a) (Run.terminal t b)

/-- Corresponding places know their own sources, and what they know is alike; at the places that are
free nothing is known in the second source. -/
structure Tables (source source' : Text) (R : Cursor → Cursor → Prop) (Free : Nat → Prop)
    (s s' : State) : Prop where
  truthful : s.table.Truthful source
  truthful' : s'.table.Truthful source'
  alike : ∀ (r : Rule) {a b : Cursor}, R a b →
    Option.Rel (Known.Like R) (s.table.find? r a.offset) (s'.table.find? r b.offset)
  free : ∀ (r : Rule) {o : Nat}, Free o → s'.table.find? r o = none

/-- A start from nothing is alike to whatever knows nothing at the places that correspond. -/
theorem Tables.afresh {s' : State} (truthful' : s'.table.Truthful source')
    (unknown : ∀ (r : Rule) {a b : Cursor}, R a b → s'.table.find? r b.offset = none)
    (free : ∀ (r : Rule) {o : Nat}, Free o → s'.table.find? r o = none) :
    Tables source source' R Free (.start source) s' where
  truthful := Table.truthful_empty source
  truthful' := truthful'
  alike r a b h := by
    rw [State.start, Table.find?_empty, unknown r h]
    exact .none
  free := free

theorem matchTerminal_like {t : Terminal} {a b : Cursor} {s s' : State}
    (h : SameTerminal R t a b) (hs : Tables source source' R Free s s') :
    (matchTerminal t a s).Like R (Tables source source' R Free) (matchTerminal t b s') := by
  unfold SameTerminal Run.terminal at h
  unfold matchTerminal
  cases ha : (afterSkip a).read t.reader <;> cases hb : (afterSkip b).read t.reader <;>
    rw [ha, hb] at h <;> cases h
  · simp only [ha, hb]
    exact ⟨hs.truthful, hs.truthful', hs.alike, hs.free⟩
  · rename_i h
    simp only [ha, hb]
    exact ⟨h, hs⟩

theorem matchNotAhead_like {t : Terminal} {a b : Cursor} {s s' : State} (hr : R a b)
    (h : SameTerminal R t a b) (hs : Tables source source' R Free s s') :
    (matchNotAhead t a s).Like R (Tables source source' R Free) (matchNotAhead t b s') := by
  unfold SameTerminal Run.terminal at h
  unfold matchNotAhead
  cases ha : (afterSkip a).read t.reader <;> cases hb : (afterSkip b).read t.reader <;>
    rw [ha, hb] at h <;> cases h
  · simp only [ha, hb]
    exact ⟨hr, hs.truthful, hs.truthful', hs.alike, hs.free⟩
  · simp only [ha, hb]
    exact ⟨hs.truthful, hs.truthful', hs.alike, hs.free⟩

/-- What is learnt at corresponding places keeps the tables alike. -/
theorem Tables.learn (unique : ∀ {a b a' b'}, R a b → R a' b' → (a.offset = a'.offset ↔
      b.offset = b'.offset)) {r : Rule} {a b : Cursor} {s s' : State}
    (hs : Tables source source' R Free s s') (ha : a.In source) (hb : b.In source') (hr : R a b)
    (hf : ¬ Free b.offset)
    (hk : Known.Like R (outcome (.rule r) a).known (outcome (.rule r) b).known) :
    Tables source source' R Free (s.learn r a.offset (outcome (.rule r) a).known)
      (s'.learn r b.offset (outcome (.rule r) b).known) where
  truthful := truthful_learn hs.truthful ha
  truthful' := truthful_learn hs.truthful' hb
  alike q a' b' hr' := by
    by_cases he : r = q ∧ a.offset = a'.offset
    · obtain ⟨rfl, ho⟩ := he
      rw [← (unique hr hr').1 ho, ← ho, State.learn, State.learn, Table.find?_insert_self,
        Table.find?_insert_self]
      exact .some hk
    · rw [State.learn, State.learn, Table.find?_insert_of_ne _ _ he,
        Table.find?_insert_of_ne _ _ fun h => he ⟨h.1, (unique hr hr').2 h.2⟩]
      exact hs.alike q hr'
  free q o ho := by
    have other : ¬ (r = q ∧ b.offset = o) := by
      rintro ⟨-, rfl⟩
      exact hf ho
    simp only [State.learn, Table.find?_insert_of_ne _ _ other]
    exact hs.free q ho

/-- Where the terminals that are tried do the same, attempts stay in step. -/
theorem mirror_of_same (inside : ∀ {a b}, R a b → a.In source ∧ b.In source')
    (unique : ∀ {a b a' b'}, R a b → R a' b' → (a.offset = a'.offset ↔ b.offset = b'.offset))
    (enter : ∀ {r a p there}, V (.rule r) a → Enters r.production a p there → V p there)
    (terminal : ∀ {t a b}, V (.term t) a → R a b → SameTerminal R t a b)
    (ahead : ∀ {r t a b}, V (.rule r) a → r.production = .notAhead t → R a b →
      SameTerminal R t a b)
    (taken : ∀ {r a b}, V (.rule r) a → R a b → ¬ Free b.offset) :
    Mirror source source' V R (Tables source source' R Free) where
  inside := inside
  truthful hs := ⟨hs.truthful, hs.truthful'⟩
  enter := enter
  terminal hv hr hs := matchTerminal_like (terminal hv hr) hs
  notAhead hv hq hr hs := matchNotAhead_like hr (ahead hv hq hr) hs
  known _ hr hs := hs.alike _ hr
  learn hv hr hs hk := hs.learn unique (inside hr).1 (inside hr).2 hr (taken hv hr) hk

/-! ### Loops over statements -/

/-- A round of a loop over one piece. -/
theorem again_of_matched {att : Attempt} {p : Piece} {budget : Text} {c : Char}
    {here there : Cursor} {s s' : State} {us : List Tree}
    (h : att p here s = .matched us there s') :
    again att [p] (c :: budget) here s = (again att [p] budget there s').after us := by
  rw [again, inOrder, h]
  simp [inOrder, Reply.after]

theorem again_of_tooDeep {att : Attempt} {p : Piece} {budget : Text} {here : Cursor} {s : State}
    (h : att p here s = .tooDeep) : again att [p] budget here s = .tooDeep := by
  rw [again, inOrder, h]

theorem Reply.after_nil (r : Reply) : r.after [] = r := by
  cases r <;> rfl

theorem Reply.after_after (us vs : List Tree) (r : Reply) :
    (r.after vs).after us = r.after (us ++ vs) := by
  cases r <;> simp [Reply.after]

theorem matchRule_eq_tooDeep_iff {att : Attempt} {remember : Bool} {r : Rule} {here : Cursor}
    {s : State} :
    matchRule att remember r here s = .tooDeep ↔ expand att r.production here s = .tooDeep := by
  unfold matchRule
  split <;> simp_all

/-- A terminal after a piece goes no deeper. -/
theorem inOrder_term_eq_tooDeep_iff {remember : Bool} {depth : Nat} {p : Piece} {t : Terminal}
    {here : Cursor} {s : State} :
    inOrder (attempt remember (depth + 1)) [p, .term t] here s = .tooDeep ↔
      attempt remember (depth + 1) p here s = .tooDeep := by
  have last (there : Cursor) (s' : State) :
      attempt remember (depth + 1) (.term t) there s' ≠ .tooDeep := by
    unfold attempt matchTerminal
    dsimp only
    split <;> simp
  unfold inOrder
  split <;> rename_i hp
  · simp [hp]
  · simp [hp]
  · rename_i ts there s'
    have tail := last there s'
    simp only [inOrder]
    cases hl : attempt remember (depth + 1) (.term t) there s' <;> simp_all [Reply.after]

/-- A rule of which nothing is known is too deep when its production is. -/
theorem attempt_rule_eq_tooDeep_iff {remember : Bool} {depth : Nat} {r : Rule} {here : Cursor}
    {s : State} (h : s.table.find? r here.offset = none) :
    attempt remember (depth + 1) (.rule r) here s = .tooDeep ↔
      expand (attempt remember depth) r.production here s = .tooDeep := by
  rw [← @matchRule_eq_tooDeep_iff _ remember]
  simp only [attempt, h]

/-- A source is too deep when the depth does not suffice to try its statements, or when trying them
goes too deep. -/
theorem judge_eq_tooDeep_iff {remember : Bool} {depth : Nat} {source : Text} :
    judge ⟨depth, remember⟩ source = .tooDeep ↔ depth < 2 ∨
      again (attempt remember (depth - 2)) [.rule .topStatement] source (.start source)
        (.start source) = .tooDeep := by
  have document : judge ⟨depth, remember⟩ source = .tooDeep ↔
      attempt remember depth (.rule .document) (.start source) (.start source) = .tooDeep := by
    unfold judge
    split <;> simp_all
  have unknown (r : Rule) :
      (State.start source).table.find? r (Cursor.start source).offset = none :=
    Table.find?_empty _ _
  rw [document]
  obtain _ | _ | depth := depth
  · simp [attempt]
  · rw [attempt_rule_eq_tooDeep_iff (unknown _)]
    simp [Rule.production, expand, inOrder, attempt]
  · have pieces : expand (attempt remember (depth + 1)) Rule.document.production (.start source)
        (.start source) = inOrder (attempt remember (depth + 1))
          [.rule .statements, .term .endOfInput] (.start source) (.start source) := rfl
    rw [attempt_rule_eq_tooDeep_iff (unknown _), pieces, inOrder_term_eq_tooDeep_iff,
      attempt_rule_eq_tooDeep_iff (unknown _)]
    have enough : ¬ depth + 1 + 1 < 2 := by omega
    rw [or_iff_right enough]
    rfl

end SolidScript.Grammar
