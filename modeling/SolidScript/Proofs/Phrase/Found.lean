import SolidScript.Proofs.Matching.Building
import SolidScript.Proofs.Phrase.First
import SolidScript.Proofs.Phrase.Reading

/-!
# Phrase — what tokens spell is found

Matching never takes a finished choice back, so an alternative that matches the front of a phrase
could hide the one that matches all of it.  It does not: where a token follows that does not go on
with the phrase (`Level.follow`), the phrase that the tokens spell is the one that is matched.

Operators of a tier, and accesses, are matched from the left, one round of a repetition each.  So a
chain of them is found as rounds of which more may follow (`Found`), and is closed by a token that
starts no other round (`Closed`).
-/

namespace SolidScript

/-- What may follow a whole expression.  No `=` does, but none goes on with an expression either. -/
def enders : List Terminal :=
  [.mark .semicolon, .mark .closeParen, .mark .closeBracket, .mark .comma, .mark .colon,
    .mark .assign]

/-- What may follow an expression of the tier, and does not go on with it: an operator of a looser
tier, or what may follow a whole expression. -/
def Tier.follow : Tier → List Terminal
  | disjunction => .mark .question :: enders
  | comparison  => .logical :: .mark .question :: enders
  | sum         => .comparison :: .logical :: .mark .question :: enders
  | product     => .additive :: .comparison :: .logical :: .mark .question :: enders

/-- What may follow an expression of the level, and does not go on with it. -/
def Level.follow : Level → List Terminal
  | expression | ternary => enders
  | tier t               => t.follow
  | unary | access       => .multiplicative :: Tier.product.follow
  | primary              => .period :: .mark .openBracket :: .multiplicative :: Tier.product.follow

namespace Tier

theorem production_rule (t : Tier) :
    t.rule.production = .chain (.rule t.next.rule) (some (.term t.terminal)) := by
  cases t <;> rfl

/-- What follows an expression of a tier may follow its operands. -/
theorem follow_subset (t : Tier) : t.follow ⊆ t.next.follow := by
  cases t <;> simp [follow, next, Level.follow]

theorem terminal_mem_follow (t : Tier) : t.terminal ∈ t.next.follow := by
  cases t <;> simp [follow, next, terminal, Level.follow]

theorem looksAtToken_terminal (t : Tier) : Grammar.looksAtToken t.terminal = true := by
  cases t <;> rfl

end Tier

namespace Grammar
open OfTree
open SolidScript.Tree (firstStart gather)

variable {here there next : Cursor} {k : Token} {ks : List Token}

/-! ### Single tokens -/

/-- A terminal matches the tokens that it stands for. -/
theorem At.matches {t : Terminal} (ht : looksAtToken t = true) (h : At here k next)
    (ha : t.Accepts k) : outcome (.term t) here = some ([.leaf t k.start k.text], next) := by
  simp only [looksAtToken, Bool.or_eq_true, beq_iff_eq] at ht
  obtain ⟨hr, -, hs, hn⟩ := h.rest
  obtain ⟨o, r⟩ := next
  rcases ht with (hp | rfl) | rfl
  · exact h.terminal (by simp [isFaithful, hp]) ha
  · obtain ⟨c, hc, ht⟩ : ∃ c, c ∈ ['*', '!', '#', '%'] ∧ k.text = [c] := by
      have := ha.2
      simp only [List.mem_cons, List.not_mem_nil, or_false] at this
      rcases this with h | h | h | h <;> exact ⟨_, by simp, h⟩
    rw [ht] at hr hn
    refine terminal_modifier_eq_some_iff.2 ⟨c, r, hc, hr, by rw [ht, hs], ?_⟩
    rw [hs] at hn
    exact congrArg (fun n => Cursor.mk n r) hn
  · rw [ha.2] at hr hn
    rw [hs] at hn
    refine terminal_mark_eq_some_iff.2 ⟨r, hr, by rw [ha.2, hs], ?_⟩
    exact congrArg (fun n => Cursor.mk n r) hn

/-- The mark `=`, where none follows. -/
theorem assign_of_at (h : At here k next) (ha : k.IsMark .assign)
    (hn : Run.terminal (.mark .assign) next = none) :
    outcome (.rule .assign) here =
      some ([.node .assign k.start [.leaf (.mark .assign) k.start k.text]], next) := by
  have ahead : outcome (.rule .notAssign) next = some ([], next) := by
    rw [outcome_rule]
    simp [Rule.production, Run.expand, hn, gather, Rule.isGroup]
  exact sequence_of_inOrder rfl
    (inOrder_cons (h.matches rfl ha) (inOrder_cons ahead (inOrder_nil next)))

/-- Where another token stands the mark `=` is not matched. -/
theorem assign_none_of_looks {ts : List Terminal} (h : Looks here ts)
    (ht : (ts.all fun t => excludes t (.mark .assign)) = true) :
    outcome (.rule .assign) here = none :=
  sequence_of_none rfl (inOrder_of_none (terminal_none_of_looks h ht))

/-- Where a piece matches stands a token that it starts with. -/
theorem looks_of_outcome {p : Piece} (hp : p.nullable = false)
    (hf : p.firsts.all Lexeme.isPlain = true) {o : List Tree × Cursor}
    (h : outcome p here = some o) : Looks here p.firsts := by
  obtain ⟨t, ht, hm⟩ := firsts_of_outcome hp (by rw [h]; simp)
  have plain := List.all_eq_true.1 hf t ht
  obtain ⟨k, m, hk, ha⟩ := token_of_terminal (by simp [looksAtToken, plain]) hm
  rcases ha with ha | ⟨hn, -⟩
  · exact ⟨k, m, .plain hk, t, ht, ha⟩
  · rw [plain] at hn; cases hn

/-- The alternatives before the one that matches fail at the token. -/
theorem none_of_looks {ts : List Terminal} (h : Looks here ts) (qs : List Piece)
    (hq : (qs.all fun p => !p.nullable &&
      p.firsts.all fun u => ts.all fun t => excludes t u) = true) :
    ∀ q ∈ qs, outcome q here = none := by
  intro q hm
  have := List.all_eq_true.1 hq q hm
  simp only [Bool.and_eq_true, Bool.not_eq_true'] at this
  exact outcome_none_of_looks h this.1 this.2

/-! ### Expressions that are found -/

/-- The expression is matched by the rule of its level, where it does not go on. -/
def Closed (l : Level) (e : Expr) (ks : List Token) : Prop :=
  ∀ ⦃here next : Cursor⦄, Laid here ks next → Looks next l.follow →
    ∃ t, outcome (.rule l.rule) here = some ([t], next) ∧ expr? t = some e ∧ t.start? = place ks

/-- The expression is matched as one of the level and rounds of the pieces after it.  What comes
after them is read as if it came after the expression. -/
def Rounds (l : Level) (ps : List Piece) (more : Place → Expr → List Tree → Option Expr) (e : Expr)
    (ks : List Token) : Prop :=
  ∀ ⦃here next : Cursor⦄, Laid here ks next → Looks next l.follow →
    ∃ t there us e₀, outcome (.rule l.rule) here = some ([t], there) ∧ expr? t = some e₀ ∧
      t.start? = place ks ∧ Repeats ps there us next ∧
      ∀ vs, more (place ks) e₀ (us ++ vs) = more (place ks) e vs

/-- No clauses and a `for` after them match here. -/
def NoLoop (here : Cursor) : Prop :=
  outcome.inOrder [.rule .letClauses, .word .forWord] here = none

/-- No expression and a colon after it match here. -/
def NoRange (here : Cursor) : Prop :=
  outcome.inOrder [.rule .expression, .mark .colon] here = none

/-- The expression is matched, and is no front of a loop. -/
def Whole (e : Expr) (ks : List Token) : Prop :=
  Closed .expression e ks ∧
    ∀ ⦃here next : Cursor⦄, Laid here ks next → Looks next enders → NoLoop here

/-- The argument is matched in front of a comma, or at the end of its list. -/
def Given (a : Argument) (ks : List Token) : Prop :=
  ∀ ⦃here next : Cursor⦄, Laid here ks next → Looks next [.mark .comma, .mark .closeParen] →
    ∃ t, outcome (.rule .argument) here = some ([t], next) ∧ argument? t = some a

/-- The phrase is found in front of what may follow it. -/
def Found : Phrase → List Token → Prop
  | .expr .expression e, ks => Whole e ks
  | .expr (.tier t) e, ks => Rounds t.next [.term t.terminal, .rule t.next.rule] chain? e ks
  | .expr .access e, ks => Rounds .primary [.rule .suffix] suffixes? e ks
  | .expr l e, ks => Closed l e ks
  | .suffix s, ks => ∀ ⦃here next : Cursor⦄, Laid here ks next →
    ∃ t, outcome (.rule .suffix) here = some ([t], next) ∧
      ∀ p e ts, suffixes? p e (t :: ts) = suffixes? p (s.onto p e) ts
  | .argument a, ks => Given a ks
  | .arguments as, ks => Commas Given as ks
  | .items es, ks => Commas Whole es ks
  | .clauses gs, ks => ∀ ⦃here next : Cursor⦄, Laid here ks next →
    ∃ us, Repeats [.rule .letClause] here us next ∧ clauses? us = some gs ∧
      firstStart us = place ks

/-! ### Tiers and accesses -/

/-- Tokens start where the first of them does. -/
theorem place_front (hk : ks ≠ []) (ls : List Token) : place (ks ++ ls) = place ks := by
  cases ks with
  | nil => exact absurd rfl hk
  | cons => rfl

theorem firstStart_cons {t : Tree} (h : t.start? = place ks) (hk : ks ≠ []) (us : List Tree) :
    firstStart (t :: us) = place ks := by
  cases ks with
  | nil => exact absurd rfl hk
  | cons k ks => simp [firstStart, h]

/-- An expression that is found at a tier is matched there as a whole. -/
theorem closed_of_tier {t : Tier} {e : Expr} (hk : ks ≠ []) (h : Found (.expr (.tier t) e) ks) :
    Closed (.tier t) e ks := by
  intro here next hl hn
  obtain ⟨u, m, us, e₀, hu, he, hs, hr, hm⟩ := h hl (hn.mono t.follow_subset)
  have stop : outcome.inOrder [.term t.terminal, .rule t.next.rule] next = none :=
    inOrder_of_none (terminal_none_of_looks hn (by cases t <;> decide))
  have whole := chain_of_repeats t.production_rule (by cases t <;> rfl) hu hr stop
  have start := firstStart_cons hs hk us
  have read := hm []
  rw [List.append_nil] at read
  refine ⟨.node t.rule (firstStart (u :: us)) (u :: us), ?_, ?_, start⟩
  · rw [show (Level.tier t).rule = t.rule from rfl, whole]
    cases t <;> rfl
  · rw [start]
    cases t <;> simpa [expr?, Tier.rule, he, chain?] using read

/-- An expression that is found as an access is matched as one. -/
theorem closed_of_access {e : Expr} (hk : ks ≠ []) (h : Found (.expr .access e) ks) :
    Closed .access e ks := by
  intro here next hl hn
  obtain ⟨u, m, us, e₀, hu, he, hs, hr, hm⟩ := h hl (hn.mono (by simp [Level.follow]))
  have stop : outcome (.rule .suffix) next = none := outcome_none_of_looks hn rfl (by decide)
  have suffixes := many_of_repeats (r := .suffixes) rfl rfl hr stop
  have whole := sequence_of_inOrder (r := .access) rfl
    (inOrder_cons hu (inOrder_cons suffixes (inOrder_nil next)))
  have read := hm []
  rw [List.append_nil] at read
  have start := firstStart_cons hs hk [.node .suffixes (firstStart us) us]
  refine ⟨.node .access (firstStart [u, .node .suffixes (firstStart us) us]) _, whole, ?_, start⟩
  rw [start]
  show expr? (.node .access _ [u, .node .suffixes (firstStart us) us]) = some e
  simpa [expr?, he, suffixes?] using read

/-- An expression that is found is matched at its level. -/
theorem closed_of_found {l : Level} {e : Expr} (hk : ks ≠ []) (h : Found (.expr l e) ks) :
    Closed l e ks := by
  cases l with
  | expression => exact h.1
  | tier t => exact closed_of_tier hk h
  | access => exact closed_of_access hk h
  | ternary | unary | primary => exact h

/-- An operand is an expression of the tier. -/
theorem rounds_of_closed {l : Level} {e : Expr} (h : Closed l e ks) {ps : List Piece}
    {more : Place → Expr → List Tree → Option Expr} : Rounds l ps more e ks := by
  intro here next hl hn
  obtain ⟨t, ho, he, hs⟩ := h hl hn
  exact ⟨t, next, [], e, ho, he, hs, .nil next, fun vs => rfl⟩

/-- An operation is found at its tier. -/
theorem found_operation {t : Tier} {a b : Expr} {op : BinaryOp} {o : Token} {ls : List Token}
    (hk : ks ≠ []) (ha : Found (.expr (.tier t) a) ks) (ho : t.terminal.Accepts o)
    (hop : BinaryOp.ofText? o.text = some op) (hb : Closed t.next b ls) :
    Found (.expr (.tier t) (.binary (place ks) a op b)) (ks ++ o :: ls) := by
  intro here next hl hn
  obtain ⟨m, hl, n, hat, hl'⟩ := by simpa only [laid_append_iff, laid_cons_iff] using hl
  obtain ⟨u, m', us, e₀, hu, he, hs, hr, hm⟩ := ha hl
    ⟨o, n, hat, t.terminal, t.terminal_mem_follow, ho⟩
  obtain ⟨v, hv, hev, -⟩ := hb hl' hn
  have round := inOrder_cons (hat.matches t.looksAtToken_terminal ho)
    (inOrder_cons hv (inOrder_nil next))
  have start := place_front hk (o :: ls)
  refine ⟨u, m', us ++ _, e₀, hu, he, by rw [hs, start], hr.append (.one round), fun vs => ?_⟩
  rw [start, List.append_assoc, hm]
  simp [chain?, hop, hev]

/-- An access behind others is found. -/
theorem found_accessed {e : Expr} {s : Suffix} {ls : List Token} (hk : ks ≠ [])
    (h : Found (.expr .access e) ks) (hs : Found (.suffix s) ls) :
    Found (.expr .access (s.onto (place ks) e)) (ks ++ ls) := by
  intro here next hl hn
  obtain ⟨m, hl, hl'⟩ := laid_append_iff.1 hl
  obtain ⟨v, hv, hread⟩ := hs hl'
  have looks := looks_of_outcome (p := .rule .suffix) rfl rfl hv
  obtain ⟨u, m', us, e₀, hu, he, hst, hr, hm⟩ := h hl (looks.mono (by decide))
  have start := place_front hk ls
  refine ⟨u, m', us ++ _, e₀, hu, he, by rw [hst, start],
    hr.append (.one (inOrder_cons hv (inOrder_nil next))), fun vs => ?_⟩
  rw [start, List.append_assoc, hm]
  exact hread _ _ _

/-! ### Lists -/

/-- The rules of a list: of one thing, of things with commas between them, with a comma after them
too, and of all that or nothing. -/
structure IsList (r i g b : Rule) : Prop where
  takes : r.nullable = false
  items : i.production = .chain (.rule r) (some (.mark .comma)) ∧ i.isGroup = true
  group : g.production = .sequence [.rule i, .rule .trailingComma] ∧ g.isGroup = true
  body : b.production = .maybe (.rule g) ∧ b.isGroup = false

theorem isList_arguments : IsList .argument .argumentItems .argumentGroup .arguments :=
  ⟨rfl, ⟨rfl, rfl⟩, ⟨rfl, rfl⟩, ⟨rfl, rfl⟩⟩

theorem isList_items : IsList .expression .vectorItems .vectorGroup .vectorBody :=
  ⟨rfl, ⟨rfl, rfl⟩, ⟨rfl, rfl⟩, ⟨rfl, rfl⟩⟩

theorem isList_parameters : IsList .parameter .parameterItems .parameterGroup .parameters :=
  ⟨rfl, ⟨rfl, rfl⟩, ⟨rfl, rfl⟩, ⟨rfl, rfl⟩⟩

section Lists
variable {α : Type} {one : Tree → Option α} {read : List Tree → Option (List α)}
  (each : ReadsEach one read) (close : Mark) {P : α → List Token → Prop} {r : Rule}
  (element : ∀ {a : α} {ks : List Token}, P a ks → ∀ ⦃here next : Cursor⦄, Laid here ks next →
    Looks next [.mark .comma, .mark close] →
      ∃ t, outcome (.rule r) here = some ([t], next) ∧ one t = some a)
  (fails : ∀ {here : Cursor}, Looks here [.mark close] → outcome (.rule r) here = none)
  (hc : (excludes (.mark close) (.mark .comma)) = true)
include each element fails hc

/-- Things with commas between them, up to what closes them. -/
theorem items_of_commas {as : List α} {ks : List Token} (h : Commas P as ks) (hne : as ≠ [])
    {here next : Cursor} (hl : Laid here ks next) (hn : Looks next [.mark close]) :
    ∃ t there us last vs, outcome (.rule r) here = some ([t], there) ∧
      Repeats [.mark .comma, .rule r] there us last ∧
      outcome.inOrder [.mark .comma, .rule r] last = none ∧
      outcome (.rule .trailingComma) last = some (vs, next) ∧
      read (t :: (us ++ vs)) = some as := by
  have closed {here : Cursor} (h : Looks here [.mark close]) :
      Run.terminal (.mark .comma) here = none := terminal_none_of_looks h (by simpa using hc)
  induction h generalizing here with
  | none => exact absurd rfl hne
  | last h =>
    obtain ⟨t, ht, ha⟩ := element h hl (hn.mono (by simp))
    exact ⟨t, next, [], next, [], ht, .nil next, inOrder_of_none (closed hn),
      maybe_of_none rfl (closed hn), by simp [each.single, ha]⟩
  | closed h hcomma =>
    obtain ⟨m, hl, n, hat, rfl⟩ := by
      simpa only [laid_append_iff, laid_cons_iff, laid_nil_iff] using hl
    obtain ⟨t, ht, ha⟩ := element h hl ((hat.looks hcomma).mono (by simp))
    have comma := hat.matches rfl hcomma
    exact ⟨t, m, [], m, _, ht, .nil m,
      inOrder_of_some_none comma (inOrder_of_none (fails hn)), maybe_of_some rfl comma,
      by simp [gather, Rule.isGroup, each.more, ha, each.nil]⟩
  | next h hcomma _ ih =>
    obtain ⟨m, hl, n, hat, hl'⟩ := by simpa only [laid_append_iff, laid_cons_iff] using hl
    obtain ⟨t, ht, ha⟩ := element h hl ((hat.looks hcomma).mono (by simp))
    obtain ⟨u, m', us, last, vs, hu, hr, stop, hv, hread⟩ := ih (by simp) hl'
    have round := inOrder_cons (hat.matches rfl hcomma) (inOrder_cons hu (inOrder_nil m'))
    refine ⟨t, m, _, last, vs, ht, .cons round hr, stop, hv, ?_⟩
    simp only [List.append_nil, List.cons_append, List.nil_append]
    rw [each.more, ha, hread]
    rfl

/-- A list with commas is matched by its rule before the mark that closes it. -/
theorem body_of_commas {i g b : Rule} (list : IsList r i g b) {as : List α} {ks : List Token}
    (h : Commas P as ks) {here next : Cursor} (hl : Laid here ks next)
    (hn : Looks next [.mark close]) :
    ∃ p us, outcome (.rule b) here = some ([.node b p us], next) ∧ read us = some as := by
  by_cases hne : as = []
  · subst hne
    cases h
    obtain rfl := laid_nil_iff.1 hl
    have no_items : outcome (.rule i) next = none := by
      rw [outcome_rule, list.items.1]
      simp [Run.expand, fails hn]
    have no_group := sequence_of_none list.group.1 (inOrder_of_none no_items)
    refine ⟨none, [], ?_, each.nil⟩
    rw [maybe_of_none list.body.1 no_group, gather, list.body.2]
    rfl
  · obtain ⟨t, m, us, last, vs, ht, hr, stop, hv, hread⟩ :=
      items_of_commas each close element fails hc h hne hl hn
    have items := chain_of_repeats list.items.1 list.takes ht hr stop
    have group := sequence_of_inOrder list.group.1
      (inOrder_cons items (inOrder_cons hv (inOrder_nil next)))
    have body := maybe_of_some list.body.1 group
    simp only [gather, list.items.2, list.group.2, list.body.2, if_true, Bool.false_eq_true,
      if_false, List.append_nil] at body
    exact ⟨_, _, body, by simpa using hread⟩

end Lists

end Grammar

end SolidScript
