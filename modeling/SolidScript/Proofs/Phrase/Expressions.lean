import SolidScript.Proofs.Phrase.Reading

/-!
# Phrase — the trees of expressions

For every rule of expressions and of their parts: what the trees of the pieces of its production are
read as passes to the tree of the rule.
-/

namespace SolidScript

/-- Expressions, arguments and accesses are spelt by a token at least, and so is every group of
bindings. -/
theorem Spells.ne_nil {p : Phrase} {ks : List Token} (h : Spells p ks) :
    match p with
    | .expr _ _ | .argument _ | .suffix _ => ks ≠ []
    | .clauses gs                         => gs ≠ [] → ks ≠ []
    | _                                   => True := by
  induction h <;> simp_all

theorem Spells.expr_ne_nil {l : Level} {e : Expr} {ks : List Token} (h : Spells (.expr l e) ks) :
    ks ≠ [] := h.ne_nil

/-- What comes after an expression does not change where it starts. -/
theorem Spells.place_append {l : Level} {e : Expr} {ks : List Token} (h : Spells (.expr l e) ks)
    (ls : List Token) : place (ks ++ ls) = place ks := by
  cases ks with
  | nil => exact absurd rfl h.expr_ne_nil
  | cons k ks => rfl

/-- The operators of a tier are operators. -/
theorem Tier.exists_op {t : Tier} {k : Token} (h : t.terminal.Accepts k) :
    ∃ op, BinaryOp.ofText? k.text = some op := by
  have among (ws : List Text) (hws : ∀ w ∈ ws, (BinaryOp.ofText? w).isSome = true)
      (hw : k.text ∈ ws) : ∃ op, BinaryOp.ofText? k.text = some op :=
    Option.isSome_iff_exists.1 (hws _ hw)
  cases t with
  | disjunction => exact among _ (by decide) h.2
  | comparison => exact among _ (by decide) h.2
  | sum => exact among _ (by decide) h.2
  | product => exact among _ (by decide) h.2

namespace Grammar
open OfTree
open SolidScript.Tree (firstStart gather)

/-- What is read at one level is read at another if what spells it there spells it here. -/
theorem ReadsExpr.imp {l m : Level} {ts : List Tree} {ks : List Token}
    (h : ∀ e, Spells (.expr l e) ks → Spells (.expr m e) ks) :
    ReadsExpr l ts ks → ReadsExpr m ts ks
  | ⟨t, e, ht, he, hs⟩ => ⟨t, e, ht, he, h e hs⟩

/-! ### Lists -/

section Lists
variable {α : Type} {one : Tree → Option α} {read : List Tree → Option (List α)}
  (each : ReadsEach one read) {P : α → List Token → Prop} {r : Rule}
  (element : ∀ ts ks, Means r ts ks → ∃ t a, ts = [t] ∧ one t = some a ∧ P a ks)
include each element

/-- The pieces of a list after the first. -/
theorem readsList_of_again {vs : List Tree} {ms : List Token}
    (h : (Reading.By Means).Again [.mark .comma, .rule r] vs ms) :
    ∀ (t : Tree) (a : α) (ls : List Token), one t = some a → P a ls →
      ∃ as, read (t :: vs) = some (a :: as) ∧ (∀ u, read (t :: vs ++ [u]) = some (a :: as)) ∧
        Commas P (a :: as) (ls ++ ms) ∧
        ∀ c : Token, c.IsMark .comma → Commas P (a :: as) (ls ++ ms ++ [c]) := by
  induction h with
  | nil =>
    intro t a ls ht hp
    refine ⟨[], by simp [each.single, ht], fun u => by simp [each.more, ht, each.nil], ?_,
      fun c hc => ?_⟩
    · rw [List.append_nil]; exact .last hp
    · rw [List.append_nil]; exact .closed hp hc
  | @cons _ us _ _ h _ ih =>
    intro t a ls ht hp
    obtain ⟨_, _, _, _, ⟨k, -, hk, rfl, rfl⟩, ⟨_, _, _, _, hm, ⟨rfl, rfl⟩, rfl, rfl⟩, rfl, rfl⟩ := h
    obtain ⟨u, b, rfl, hb, hpb⟩ := element _ _ hm
    obtain ⟨as, hr, hr', hc, hc'⟩ := ih u b _ hb hpb
    refine ⟨b :: as, ?_, fun v => ?_, ?_, fun c hc'' => ?_⟩
    · exact (each.more t _ (u :: us)).trans (by rw [ht, hr]; rfl)
    · exact (each.more t _ (u :: us ++ [v])).trans (by rw [ht, hr' v]; rfl)
    · simpa using Commas.next hp hk hc
    · simpa using Commas.next hp hk (hc' c hc'')

/-- A chain with commas is read as the list of what its pieces are read as. -/
theorem readsList_of_chain {ts : List Tree} {ks : List Token}
    (h : (Reading.By Means).Expands (.chain (.rule r) (some (.mark .comma))) ts ks) :
    ReadsList read P ts ks := by
  obtain ⟨us, ls, vs, ms, hm, h, rfl, rfl⟩ := h
  obtain ⟨t, a, rfl, ha, hp⟩ := element _ _ hm
  obtain ⟨as, hr, hr', hc, hc'⟩ := readsList_of_again each element h t a ls ha hp
  exact ⟨a :: as, hr, hr', hc, hc'⟩

end Lists

/-- A list and perhaps a comma. -/
theorem reads_of_group {α : Type} {read : List Tree → Option (List α)}
    {P : α → List Token → Prop} {us vs : List Tree} {ls ms : List Token}
    (h : ReadsList read P us ls) (k : Shape .trailingComma vs ms) :
    ∃ as, read (us ++ vs) = some as ∧ Commas P as (ls ++ ms) := by
  obtain ⟨as, hr, hr', hc, hc'⟩ := h
  rcases k with ⟨rfl, rfl⟩ | ⟨t, k, rfl, rfl, hk⟩
  · exact ⟨as, by simpa using hr, by simpa using hc⟩
  · exact ⟨as, hr' t, hc' k hk⟩

variable {ts : List Tree} {ks : List Token}

/-! ### Expressions -/

/-- An argument is read as one, with a name or without. -/
theorem shape_argument (h : (Reading.By Means).Expands Rule.argument.production ts ks) :
    ReadsArgument ts ks := by
  obtain ⟨p, hp, h⟩ := h
  simp only [List.mem_cons, List.not_mem_nil, or_false] at hp
  rcases hp with rfl | rfl <;> exact h.2

/-- A name, an equals sign and an expression are read as an argument with a name. -/
theorem shape_namedArgument
    (h : (Reading.By Means).Expands Rule.namedArgument.production ts ks) :
    ReadsArgument (gather .namedArgument ts) ks := by
  obtain ⟨_, _, _, _, ⟨n, -, hn, rfl, rfl⟩, ⟨_, _, _, _, ⟨-, a, t, rfl, rfl, ha⟩,
    ⟨_, _, _, _, ⟨-, u, e, rfl, he, hs⟩, ⟨rfl, rfl⟩, rfl, rfl⟩, rfl, rfl⟩, rfl, rfl⟩ := h
  exact ⟨_, .mk n.start (some n.text) e, rfl, by simp [argument?, he]; rfl, by
    simpa using .named hn ha hs⟩

/-- An expression is read as an argument without a name. -/
theorem shape_positionalArgument (h0 : Starts ts ks)
    (h : (Reading.By Means).Expands Rule.positionalArgument.production ts ks) :
    ReadsArgument (gather .positionalArgument ts) ks := by
  obtain ⟨_, _, _, _, ⟨-, u, e, rfl, he, hs⟩, ⟨rfl, rfl⟩, rfl, rfl⟩ := h
  rw [List.append_nil, List.append_nil] at h0
  rw [List.append_nil, List.append_nil]
  exact ⟨_, .mk _ none e, rfl, by simp [argument?, he]; exact h0, .positional hs⟩

theorem shape_argumentItems (h : (Reading.By Means).Expands Rule.argumentItems.production ts ks) :
    ReadsList arguments? (fun a => Spells (.argument a)) ts ks :=
  readsList_of_chain readsEach_arguments (r := .argument) (fun _ _ h => h.2) h

theorem shape_vectorItems (h : (Reading.By Means).Expands Rule.vectorItems.production ts ks) :
    ReadsList items? (fun e => Spells (.expr .expression e)) ts ks :=
  readsList_of_chain readsEach_items (r := .expression) (fun _ _ h => h.2) h

/-- Arguments and perhaps a comma are read as the arguments. -/
theorem shape_argumentGroup (h : (Reading.By Means).Expands Rule.argumentGroup.production ts ks) :
    Shape .argumentGroup ts ks := by
  obtain ⟨_, _, _, _, hl, ⟨_, _, _, _, hc, ⟨rfl, rfl⟩, rfl, rfl⟩, rfl, rfl⟩ := h
  obtain ⟨as, hr, h⟩ := reads_of_group hl.2 hc.2
  exact ⟨as, by simpa using hr, by simpa using Spells.ofCommas_arguments h⟩

theorem shape_vectorGroup (h : (Reading.By Means).Expands Rule.vectorGroup.production ts ks) :
    Shape .vectorGroup ts ks := by
  obtain ⟨_, _, _, _, hl, ⟨_, _, _, _, hc, ⟨rfl, rfl⟩, rfl, rfl⟩, rfl, rfl⟩ := h
  obtain ⟨as, hr, h⟩ := reads_of_group hl.2 hc.2
  exact ⟨as, by simpa using hr, by simpa using Spells.ofCommas_items h⟩

/-- Arguments, or none, are read as a list. -/
theorem shape_arguments (h : (Reading.By Means).Expands Rule.arguments.production ts ks) :
    Shape .arguments (gather .arguments ts) ks := by
  rcases h with ⟨rfl, rfl⟩ | ⟨-, as, hr, h⟩
  · exact ⟨_, _, [], rfl, by simp [arguments?], .noArguments⟩
  · exact ⟨_, _, as, rfl, hr, h⟩

theorem shape_vectorBody (h : (Reading.By Means).Expands Rule.vectorBody.production ts ks) :
    Shape .vectorBody (gather .vectorBody ts) ks := by
  rcases h with ⟨rfl, rfl⟩ | ⟨-, as, hr, h⟩
  · exact ⟨_, _, [], rfl, by simp [items?], .noItems⟩
  · exact ⟨_, _, as, rfl, hr, h⟩

/-- The clause of a `let` is read as its bindings. -/
theorem shape_letClause (h : (Reading.By Means).Expands Rule.letClause.production ts ks) :
    Shape .letClause (gather .letClause ts) ks := by
  obtain ⟨_, _, _, _, ⟨k, -, hk, rfl, rfl⟩, ⟨_, _, _, _, ⟨o, -, ho, rfl, rfl⟩,
    ⟨_, _, _, _, ⟨-, _, us, as, rfl, hr, hs⟩, ⟨_, _, _, _, ⟨c, -, hc, rfl, rfl⟩, ⟨rfl, rfl⟩, rfl,
    rfl⟩, rfl, rfl⟩, rfl, rfl⟩, rfl, rfl⟩ := h
  exact ⟨_, as, rfl, fun r gs hg => by simp [clauses?, hr, hg], fun gs ls hg => by
    simpa using Spells.clause hk ho hs hc hg⟩

/-- The clauses one after the other. -/
theorem clauses_of_again (h : (Reading.By Means).Again [.rule .letClause] ts ks) :
    ∃ gs, clauses? ts = some gs ∧ Spells (.clauses gs) ks := by
  induction h with
  | nil => exact ⟨[], by simp [clauses?], .noClauses⟩
  | cons h _ ih =>
    obtain ⟨_, _, _, _, ⟨-, t, g, rfl, hr, hs⟩, ⟨rfl, rfl⟩, rfl, rfl⟩ := h
    obtain ⟨gs, hg, hs'⟩ := ih
    exact ⟨g :: gs, by simpa using hr _ _ hg, by simpa using hs _ _ hs'⟩

theorem shape_letClauses (h : (Reading.By Means).Expands Rule.letClauses.production ts ks) :
    Shape .letClauses (gather .letClauses ts) ks := by
  obtain ⟨gs, hg, hs⟩ := clauses_of_again h
  exact ⟨_, _, gs, rfl, hg, hs⟩

theorem shape_letRun (h : (Reading.By Means).Expands Rule.letRun.production ts ks) :
    Shape .letRun (gather .letRun ts) ks := by
  obtain ⟨_, _, _, _, ⟨-, t, g, rfl, hr, hs⟩, h, rfl, rfl⟩ := h
  obtain ⟨gs, hg, hs'⟩ := clauses_of_again h
  exact ⟨_, _, g :: gs, rfl, hr _ _ hg, by simp, hs _ _ hs'⟩

/-- Clauses before an expression are read as bindings that all of them make. -/
theorem shape_letExpression (h0 : Starts ts ks)
    (h : (Reading.By Means).Expands Rule.letExpression.production ts ks) :
    ReadsExpr .expression (gather .letExpression ts) ks := by
  obtain ⟨_, ls, _, _, ⟨-, p, us, gs, rfl, hg, hn, hs⟩, ⟨_, ms, _, _, ⟨-, t, e, rfl, he, hs'⟩,
    ⟨rfl, rfl⟩, rfl, rfl⟩, rfl, rfl⟩ := h
  have starts : place (ls ++ ms) = place ls := by
    cases hs with
    | noClauses => exact absurd rfl hn
    | clause => rfl
  simp only [List.append_nil] at h0 ⊢
  refine ⟨_, .led (place ls) .binding gs.flatten e, rfl, ?_, .bound hn hs hs'⟩
  simp only [expr?, List.cons_append, List.nil_append, hg, he]
  exact congrArg (fun p => some (Expr.led p .binding gs.flatten e)) (h0.trans starts)

/-- An expression is read as one, with bindings before it or without. -/
theorem shape_expression (h : (Reading.By Means).Expands Rule.expression.production ts ks) :
    ReadsExpr .expression ts ks := by
  obtain ⟨p, hp, h⟩ := h
  simp only [List.mem_cons, List.not_mem_nil, or_false] at hp
  rcases hp with rfl | rfl
  · exact h.2
  · exact ReadsExpr.imp (fun _ => .unbound) h.2

/-- What `echo` and `assert` lead. -/
theorem reads_of_led {l : Lead} (hl : l ≠ .binding) {r : Rule} (hr : r.isGroup = false)
    (read : ∀ p a b x us c t, expr? (.node r p [a, b, .node .arguments x us, c, t]) =
      do some (.led p l (← arguments? us) (← expr? t)))
    (h : (Reading.By Means).Expands (.sequence [.word l.keyword, .mark .openParen,
      .rule .arguments, .mark .closeParen, .rule .expression]) ts ks) :
    ReadsExpr .ternary (gather r ts) ks := by
  obtain ⟨_, _, _, _, ⟨k, -, hk, rfl, rfl⟩, ⟨_, _, _, _, ⟨o, -, ho, rfl, rfl⟩,
    ⟨_, _, _, _, ⟨-, x, us, as, rfl, ha, hs⟩, ⟨_, _, _, _, ⟨c, -, hc, rfl, rfl⟩,
    ⟨_, _, _, _, ⟨-, t, e, rfl, he, hs'⟩, ⟨rfl, rfl⟩, rfl, rfl⟩, rfl, rfl⟩, rfl, rfl⟩, rfl, rfl⟩,
    rfl, rfl⟩ := h
  refine ⟨_, .led k.start l as e, by simp only [gather, hr]; rfl, ?_, ?_⟩
  · exact (read _ _ _ _ _ _ _).trans (by rw [ha, he]; rfl)
  · simpa using Spells.led hl hk ho hs hc hs'

/-- A question mark and a colon between expressions are read as a conditional expression. -/
theorem shape_ternary (h0 : Starts ts ks)
    (h : (Reading.By Means).Expands Rule.ternary.production ts ks) :
    ReadsExpr .ternary (gather .ternary ts) ks := by
  obtain ⟨_, _, _, _, ⟨-, t, e, rfl, he, hs⟩, ⟨_, _, _, _, ⟨q, -, hq, rfl, rfl⟩,
    ⟨_, _, _, _, ⟨-, u, a, rfl, ha, hsa⟩, ⟨_, _, _, _, ⟨c, -, hc, rfl, rfl⟩,
    ⟨_, _, _, _, ⟨-, v, b, rfl, hb, hsb⟩, ⟨rfl, rfl⟩, rfl, rfl⟩, rfl, rfl⟩, rfl, rfl⟩, rfl, rfl⟩,
    rfl, rfl⟩ := h
  refine ⟨_, .ternary (place _) e a b, rfl, ?_, by simpa using Spells.ternary hs hq hsa hc hsb⟩
  simp only [expr?, List.cons_append, List.nil_append, he, ha, hb]
  exact congrArg (fun p => some (Expr.ternary p e a b)) (h0.trans (hs.place_append _))

/-- What has no bindings before it is read as an expression of that level. -/
theorem shape_ternaryLevel (h : (Reading.By Means).Expands Rule.ternaryLevel.production ts ks) :
    ReadsExpr .ternary ts ks := by
  obtain ⟨p, hp, h⟩ := h
  simp only [List.mem_cons, List.not_mem_nil, or_false] at hp
  rcases hp with rfl | rfl | rfl | rfl
  · exact h.2
  · exact h.2
  · exact h.2
  · exact ReadsExpr.imp (fun _ => .unconditional) h.2

/-- The operators and operands after the first. -/
theorem chain_of_again {t : Tier}
    (operand : ∀ ts ks, Means t.next.rule ts ks → ReadsExpr t.next ts ks)
    (h : (Reading.By Means).Again [.term t.terminal, .rule t.next.rule] ts ks) :
    ∀ (e : Expr) (ls : List Token), Spells (.expr (.tier t) e) ls →
      ∃ e', chain? (place ls) e ts = some e' ∧ Spells (.expr (.tier t) e') (ls ++ ks) := by
  induction h with
  | nil => exact fun e ls hs => ⟨e, by simp [chain?], by simpa using hs⟩
  | cons h _ ih =>
    intro e ls hs
    obtain ⟨_, _, _, _, ⟨o, -, ho, rfl, rfl⟩, ⟨_, _, _, _, hm, ⟨rfl, rfl⟩, rfl, rfl⟩, rfl, rfl⟩ := h
    obtain ⟨u, b, rfl, hb, hsb⟩ := operand _ _ hm
    obtain ⟨op, hop⟩ := Tier.exists_op ho
    obtain ⟨e', he', hs'⟩ := ih _ _ (.operation hs ho hop hsb)
    rw [hs.place_append] at he'
    exact ⟨e', by simpa [chain?, hop, hb] using he', by simpa using hs'⟩

/-- A tier of operators. -/
theorem reads_of_tier (t : Tier) (h0 : Starts ts ks)
    (operand : ∀ ts ks, Means t.next.rule ts ks → ReadsExpr t.next ts ks)
    (h : (Reading.By Means).Expands (.chain (.rule t.next.rule) (some (.term t.terminal))) ts ks) :
    ReadsExpr (.tier t) (gather t.rule ts) ks := by
  obtain ⟨_, _, us, _, hm, h, rfl, rfl⟩ := h
  obtain ⟨u, e, rfl, he, hs⟩ := operand _ _ hm
  obtain ⟨e', he', hs'⟩ := chain_of_again operand h e _ (.operand hs)
  rw [← h0.trans (hs.place_append _)] at he'
  refine ⟨.node t.rule (firstStart (u :: us)) (u :: us), e', ?_, ?_, hs'⟩
  · cases t <;> rfl
  · cases t <;> simpa [expr?, he, Tier.rule] using he'

/-- A sign before an operand is read as what the sign makes of it. -/
theorem shape_signed (h : (Reading.By Means).Expands Rule.signed.production ts ks) :
    ReadsExpr .unary (gather .signed ts) ks := by
  obtain ⟨_, _, _, _, ⟨k, -, hk, rfl, rfl⟩, ⟨_, _, _, _, ⟨-, t, e, rfl, he, hs⟩, ⟨rfl, rfl⟩, rfl,
    rfl⟩, rfl, rfl⟩ := h
  obtain ⟨e', he'⟩ : ∃ e', signed? (some k.start) k.text e = some e' := by
    have := hk.2
    simp only [List.mem_cons, List.not_mem_nil, or_false] at this
    rcases this with h | h | h <;> simp [signed?, h]
  exact ⟨_, e', rfl, by simpa [expr?, he, firstStart, Tree.start?] using he',
    by simpa using Spells.signed hk hs he'⟩

theorem shape_unaryLevel (h : (Reading.By Means).Expands Rule.unaryLevel.production ts ks) :
    ReadsExpr .unary ts ks := by
  obtain ⟨p, hp, h⟩ := h
  simp only [List.mem_cons, List.not_mem_nil, or_false] at hp
  rcases hp with rfl | rfl
  · exact h.2
  · exact ReadsExpr.imp (fun _ => .unsigned) h.2

theorem shape_memberSuffix (h : (Reading.By Means).Expands Rule.memberSuffix.production ts ks) :
    ReadsSuffix (gather .memberSuffix ts) ks := by
  obtain ⟨_, _, _, _, ⟨p, -, hp, rfl, rfl⟩, ⟨_, _, _, _, ⟨n, -, hn, rfl, rfl⟩, ⟨rfl, rfl⟩, rfl,
    rfl⟩, rfl, rfl⟩ := h
  exact ⟨_, .member n.text, rfl, fun p e r => by simp [suffixes?, Suffix.onto], .member hp hn⟩

theorem shape_indexSuffix (h : (Reading.By Means).Expands Rule.indexSuffix.production ts ks) :
    ReadsSuffix (gather .indexSuffix ts) ks := by
  obtain ⟨_, _, _, _, ⟨o, -, ho, rfl, rfl⟩, ⟨_, _, _, _, ⟨-, t, e, rfl, he, hs⟩,
    ⟨_, _, _, _, ⟨c, -, hc, rfl, rfl⟩, ⟨rfl, rfl⟩, rfl, rfl⟩, rfl, rfl⟩, rfl, rfl⟩ := h
  exact ⟨_, .index e, rfl, fun p b r => by simp [suffixes?, Suffix.onto, he], .index ho hs hc⟩

/-- An access is read as one, to a field or at an index. -/
theorem shape_suffix (h : (Reading.By Means).Expands Rule.suffix.production ts ks) :
    ReadsSuffix ts ks := by
  obtain ⟨p, hp, h⟩ := h
  simp only [List.mem_cons, List.not_mem_nil, or_false] at hp
  rcases hp with rfl | rfl <;> exact h.2

/-- The accesses one after the other. -/
theorem suffixes_of_again (h : (Reading.By Means).Again [.rule .suffix] ts ks) :
    ∀ (e : Expr) (ls : List Token), Spells (.expr .access e) ls →
      ∃ e', suffixes? (place ls) e ts = some e' ∧ Spells (.expr .access e') (ls ++ ks) := by
  induction h with
  | nil => exact fun e ls hs => ⟨e, by simp [suffixes?], by simpa using hs⟩
  | cons h _ ih =>
    intro e ls hs
    obtain ⟨_, _, _, _, ⟨-, t, s, rfl, hr, hs'⟩, ⟨rfl, rfl⟩, rfl, rfl⟩ := h
    obtain ⟨e', he', hs''⟩ := ih _ _ (.accessed hs hs')
    rw [hs.place_append] at he'
    exact ⟨e', by simpa [hr] using he', by simpa using hs''⟩

theorem shape_suffixes (h : (Reading.By Means).Expands Rule.suffixes.production ts ks) :
    Shape .suffixes (gather .suffixes ts) ks :=
  ⟨_, ts, rfl, suffixes_of_again h⟩

/-- Accesses behind a primary are read as applied to it in order. -/
theorem shape_access (h0 : Starts ts ks)
    (h : (Reading.By Means).Expands Rule.access.production ts ks) :
    ReadsExpr .access (gather .access ts) ks := by
  obtain ⟨_, _, _, _, ⟨-, t, e, rfl, he, hs⟩, ⟨_, _, _, _, ⟨-, p, us, rfl, hr⟩, ⟨rfl, rfl⟩, rfl,
    rfl⟩, rfl, rfl⟩ := h
  obtain ⟨e', he', hs'⟩ := hr e _ (.base hs)
  rw [← h0.trans (hs.place_append _)] at he'
  exact ⟨_, e', rfl, by simpa [expr?, he] using he', by simpa using hs'⟩

/-! ### Primaries -/

/-- A name with arguments in parentheses is read as a call. -/
theorem shape_functionCall (h : (Reading.By Means).Expands Rule.functionCall.production ts ks) :
    ReadsExpr .primary (gather .functionCall ts) ks := by
  obtain ⟨_, _, _, _, ⟨n, -, hn, rfl, rfl⟩, ⟨_, _, _, _, ⟨o, -, ho, rfl, rfl⟩,
    ⟨_, _, _, _, ⟨-, x, us, as, rfl, ha, hs⟩, ⟨_, _, _, _, ⟨c, -, hc, rfl, rfl⟩, ⟨rfl, rfl⟩, rfl,
    rfl⟩, rfl, rfl⟩, rfl, rfl⟩, rfl, rfl⟩ := h
  exact ⟨_, .call n.start n.text as, rfl, by simp [expr?, ha, firstStart, Tree.start?],
    .call hn ho hs hc⟩

theorem shape_parenthesized
    (h : (Reading.By Means).Expands Rule.parenthesized.production ts ks) :
    ReadsExpr .primary (gather .parenthesized ts) ks := by
  obtain ⟨_, _, _, _, ⟨o, -, ho, rfl, rfl⟩, ⟨_, _, _, _, ⟨-, t, e, rfl, he, hs⟩,
    ⟨_, _, _, _, ⟨c, -, hc, rfl, rfl⟩, ⟨rfl, rfl⟩, rfl, rfl⟩, rfl, rfl⟩, rfl, rfl⟩ := h
  exact ⟨_, e, rfl, (expr?_parenthesized _ _ _ _).trans he, .parenthesized ho hs hc⟩

/-- Groups of bindings, a loop and a body in brackets are read as a comprehension. -/
theorem shape_comprehension
    (h : (Reading.By Means).Expands Rule.comprehension.production ts ks) :
    ReadsExpr .primary (gather .comprehension ts) ks := by
  obtain ⟨_, _, _, _, ⟨o, -, ho, rfl, rfl⟩, ⟨_, _, _, _, ⟨-, x, us, gs, rfl, hg, hsg⟩,
    ⟨_, _, _, _, ⟨f, -, hf, rfl, rfl⟩, ⟨_, _, _, _, ⟨p, -, hp, rfl, rfl⟩,
    ⟨_, _, _, _, ⟨-, y, vs, as, rfl, ha, hsa⟩, ⟨_, _, _, _, ⟨c, -, hc, rfl, rfl⟩,
    ⟨_, _, _, _, ⟨-, t, e, rfl, he, hs⟩, ⟨_, _, _, _, ⟨q, -, hq, rfl, rfl⟩, ⟨rfl, rfl⟩, rfl, rfl⟩,
    rfl, rfl⟩, rfl, rfl⟩, rfl, rfl⟩, rfl, rfl⟩, rfl, rfl⟩, rfl, rfl⟩, rfl, rfl⟩ := h
  exact ⟨_, .comprehension o.start gs as e, rfl,
    by simp [expr?, hg, ha, he, firstStart, Tree.start?],
    by simpa using Spells.comprehension ho hsg hf hp hsa hc hs hq⟩

/-- A mark and an expression. -/
theorem reads_after {m : Mark}
    (h : (Reading.By Means).Expands (.sequence [.mark m, .rule .expression]) ts ks) :
    ReadsAfter m ts ks := by
  obtain ⟨_, _, _, _, ⟨k, -, hk, rfl, rfl⟩, ⟨_, _, _, _, ⟨-, u, e, rfl, he, hs⟩, ⟨rfl, rfl⟩, rfl,
    rfl⟩, rfl, rfl⟩ := h
  exact ⟨_, u, e, k, _, rfl, he, rfl, hk, by simpa using hs⟩

theorem shape_rangeStep (h : (Reading.By Means).Expands Rule.rangeStep.production ts ks) :
    Shape .rangeStep (gather .rangeStep ts) ks := by
  rcases h with ⟨rfl, rfl⟩ | h
  · exact ⟨_, _, rfl, .inl ⟨rfl, rfl⟩⟩
  · exact ⟨_, _, rfl, .inr h.2⟩

/-- Expressions with colons between them, in brackets, are read as a range; the step stands in the
middle. -/
theorem shape_range (h : (Reading.By Means).Expands Rule.range.production ts ks) :
    ReadsExpr .primary (gather .range ts) ks := by
  obtain ⟨_, _, _, _, ⟨o, -, ho, rfl, rfl⟩, ⟨_, _, _, _, ⟨-, t, a, rfl, ha, hsa⟩,
    ⟨_, _, _, _, ⟨m, -, hm, rfl, rfl⟩, ⟨_, _, _, _, ⟨-, u, b, rfl, hb, hsb⟩,
    ⟨_, _, _, _, ⟨-, x, us, rfl, h⟩, ⟨_, _, _, _, ⟨c, -, hc, rfl, rfl⟩, ⟨rfl, rfl⟩, rfl, rfl⟩,
    rfl, rfl⟩, rfl, rfl⟩, rfl, rfl⟩, rfl, rfl⟩, rfl, rfl⟩ := h
  rcases h with ⟨rfl, rfl⟩ | ⟨v, w, e, m', ls, rfl, he, rfl, hm', hs⟩
  · exact ⟨_, .range o.start a none b, rfl, by simp [expr?, ha, hb, firstStart, Tree.start?],
      by simpa using Spells.range ho hsa hm hsb hc⟩
  · exact ⟨_, .range o.start a (some b) e, rfl,
      by simp [expr?, ha, hb, he, firstStart, Tree.start?],
      by simpa using Spells.steppedRange ho hsa hm hsb hm' hs hc⟩

/-- Expressions in brackets are read as a vector. -/
theorem shape_vector (h : (Reading.By Means).Expands Rule.vector.production ts ks) :
    ReadsExpr .primary (gather .vector ts) ks := by
  obtain ⟨_, _, _, _, ⟨o, -, ho, rfl, rfl⟩, ⟨_, _, _, _, ⟨-, x, us, es, rfl, he, hs⟩,
    ⟨_, _, _, _, ⟨c, -, hc, rfl, rfl⟩, ⟨rfl, rfl⟩, rfl, rfl⟩, rfl, rfl⟩, rfl, rfl⟩ := h
  exact ⟨_, .vector o.start es, rfl, by simp [expr?, he, firstStart, Tree.start?],
    .vector ho hs hc⟩

/-- A primary is read as an expression, whichever of its alternatives it is. -/
theorem shape_primary (h : (Reading.By Means).Expands Rule.primary.production ts ks) :
    ReadsExpr .primary ts ks := by
  obtain ⟨p, hp, h⟩ := h
  simp only [List.mem_cons, List.not_mem_nil, or_false] at hp
  rcases hp with rfl | rfl | rfl | rfl | rfl | rfl | rfl | rfl | rfl | rfl | rfl
  · exact h.2
  · obtain ⟨k, -, hk, rfl, rfl⟩ := h
    exact ⟨_, .undef k.start, rfl, by simp [expr?], .literal hk rfl⟩
  · obtain ⟨k, -, hk, rfl, rfl⟩ := h
    exact ⟨_, .boolean k.start true, rfl, by simp [expr?], .literal hk rfl⟩
  · obtain ⟨k, -, hk, rfl, rfl⟩ := h
    exact ⟨_, .boolean k.start false, rfl, by simp [expr?], .literal hk rfl⟩
  · obtain ⟨k, -, hk, rfl, rfl⟩ := h
    exact ⟨_, .text k.start (inner k.text), rfl, by simp [expr?], .text hk⟩
  · obtain ⟨k, hp, hk, rfl, rfl⟩ := h
    obtain ⟨v, hv⟩ := hp hk
    exact ⟨_, .number k.start v, rfl, by simp [expr?, hv], .number hk hv⟩
  · exact h.2
  · exact h.2
  · exact h.2
  · exact h.2
  · obtain ⟨k, -, hk, rfl, rfl⟩ := h
    exact ⟨_, .variable k.start k.text, rfl, by simp [expr?], .name hk⟩

end SolidScript.Grammar
