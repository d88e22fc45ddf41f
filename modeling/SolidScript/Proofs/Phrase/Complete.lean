import SolidScript.Proofs.Phrase.Found
import SolidScript.Proofs.Phrase.Statements

/-!
# Phrase — every expression that tokens spell is found

One lemma for each way to spell a phrase, and from them `Spells.found`.  The alternatives that are
tried before the right one fail for one of three reasons: the first token is none that they start
with; a token after a part that they share with the right one is not what they want there; or, for
a named argument, the part that they share would have to end where the whole argument does.
-/

namespace SolidScript.Grammar
open OfTree
open Piece (mark word)
open SolidScript.Tree (firstStart gather)

variable {here there next : Cursor} {k o c : Token} {ks ls ms : List Token} {e : Expr}

/-! ### What does not match -/

/-- No loop starts with a token that is neither `let` nor `for`. -/
theorem noLoop_of_looks {ts : List Terminal} (h : Looks here ts)
    (hl : (ts.all fun t => excludes t (.keyword .letWord) && excludes t (.keyword .forWord)) = true) :
    NoLoop here := by
  simp only [List.all_eq_true, Bool.and_eq_true] at hl
  have clause : outcome (.rule .letClause) here = none :=
    sequence_of_none rfl (inOrder_of_none
      (terminal_none_of_looks h (List.all_eq_true.2 fun t ht => (hl t ht).1)))
  have clauses := many_of_repeats (r := .letClauses) rfl rfl (.nil here) clause
  exact inOrder_of_some_none clauses (inOrder_of_none
    (terminal_none_of_looks h (List.all_eq_true.2 fun t ht => (hl t ht).2)))

/-- Where the first pieces do not match, no more of them do. -/
theorem inOrder_append_of_none {ps : List Piece} (qs : List Piece)
    (h : outcome.inOrder ps here = none) : outcome.inOrder (ps ++ qs) here = none := by
  rw [Run.inOrder_append, h]
  rfl

/-! ### Lists -/

/-- Arguments that are found are matched before the closing parenthesis. -/
theorem arguments_of_found {as : List Argument} (h : Found (.arguments as) ks)
    (hl : Laid here ks next) (hn : Looks next [.mark .closeParen]) :
    ∃ p us, outcome (.rule .arguments) here = some ([.node .arguments p us], next) ∧
      arguments? us = some as :=
  body_of_commas readsEach_arguments .closeParen (fun h => h)
    (fun h => outcome_none_of_looks h rfl (by decide)) rfl isList_arguments h hl hn

/-- An item is no front of a loop, and no front of a range. -/
theorem noRange_of_whole (h : Whole e ks) (hl : Laid here ks next)
    (hn : Looks next [.mark .comma, .mark .closeBracket]) : NoLoop here ∧ NoRange here := by
  have ends : Looks next enders := hn.mono (by decide)
  obtain ⟨t, ht, -, -⟩ := h.1 hl ends
  exact ⟨h.2 hl ends, inOrder_of_some_none ht (inOrder_of_none
    (terminal_none_of_looks hn (by decide)))⟩

/-- Items that are found are matched before the closing bracket, and are neither a loop nor a
range. -/
theorem items_of_found {es : List Expr} (h : Found (.items es) ks) (hl : Laid here ks next)
    (hn : Looks next [.mark .closeBracket]) :
    (∃ p us, outcome (.rule .vectorBody) here = some ([.node .vectorBody p us], next) ∧
      items? us = some es) ∧ NoLoop here ∧ NoRange here := by
  constructor
  · refine body_of_commas readsEach_items .closeBracket (fun h _ _ hl hn => ?_)
      (fun h => outcome_none_of_looks h rfl (by decide)) rfl isList_items h hl hn
    obtain ⟨t, ht, he, -⟩ := h.1 hl (hn.mono (by decide))
    exact ⟨t, ht, he⟩
  · cases h with
    | none =>
      obtain rfl := laid_nil_iff.1 hl
      exact ⟨noLoop_of_looks hn (by decide),
        inOrder_of_none (outcome_none_of_looks hn rfl (by decide))⟩
    | last h => exact noRange_of_whole h hl (hn.mono (by decide))
    | closed h hc =>
      obtain ⟨m, hl, n, hat, -⟩ := by simpa only [laid_append_iff, laid_cons_iff] using hl
      exact noRange_of_whole h hl ((hat.looks hc).mono (by decide))
    | next h hc =>
      obtain ⟨m, hl, n, hat, -⟩ := by simpa only [laid_append_iff, laid_cons_iff] using hl
      exact noRange_of_whole h hl ((hat.looks hc).mono (by decide))

/-! ### Leads and conditionals -/

/-- An expression without bindings is found as one: it is no `let` with an expression behind it. -/
theorem found_unbound (h : Closed .ternary e ks) : Found (.expr .expression e) ks := by
  have looks {here next : Cursor} (hl : Laid here ks next) (hn : Looks next enders) :
      Looks here (Piece.rule .ternaryLevel).firsts := by
    obtain ⟨t, ht, -, -⟩ := h hl hn
    exact looks_of_outcome rfl (by decide) ht
  refine ⟨fun _ _ hl hn => ?_, fun _ _ hl hn => noLoop_of_looks (looks hl hn) (by decide)⟩
  obtain ⟨t, ht, he, hs⟩ := h hl hn
  exact ⟨t, choice_of_split [.rule .letExpression] rfl (none_of_looks (looks hl hn) _ (by decide)) ht,
    he, hs⟩

/-- Bindings with an expression behind them are found. -/
theorem found_bound {gs : List (List Argument)} (hne : gs ≠ []) (hk : ks ≠ [])
    (hg : Found (.clauses gs) ks) (h : Closed .ternary e ls) :
    Found (.expr .expression (.led (place ks) .binding gs.flatten e)) (ks ++ ls) := by
  have split {here next : Cursor} (hl : Laid here (ks ++ ls) next) (hn : Looks next enders) :
      ∃ m us t, Repeats [.rule .letClause] here us m ∧ clauses? us = some gs ∧
        firstStart us = place ks ∧ outcome (.rule .ternaryLevel) m = some ([t], next) ∧
        expr? t = some e ∧ Looks m (Piece.rule .ternaryLevel).firsts := by
    obtain ⟨m, hl, hl'⟩ := laid_append_iff.1 hl
    obtain ⟨us, hr, hc, hs⟩ := hg hl
    obtain ⟨t, ht, he, -⟩ := h hl' hn
    exact ⟨m, us, t, hr, hc, hs, ht, he, looks_of_outcome rfl (by decide) ht⟩
  constructor
  · intro here next hl hn
    obtain ⟨m, us, t, hr, hc, hs, ht, he, looks⟩ := split hl hn
    have stop : outcome (.rule .letClause) m = none := outcome_none_of_looks looks rfl (by decide)
    cases hr with
    | nil => exact absurd (by simpa [clauses?] using hc) hne.symm
    | @cons _ m' _ vs us hfirst hr =>
      rw [Run.inOrder_singleton] at hfirst
      have run := chain_of_repeats (r := .letRun) rfl rfl hfirst hr (inOrder_of_none stop)
      have whole := sequence_of_inOrder (r := .letExpression) rfl
        (inOrder_cons run (inOrder_cons ht (inOrder_nil next)))
      have start := firstStart_cons (t := .node .letRun _ (vs ++ us)) hs hk [t]
      refine ⟨_, choice_of_split [] rfl (by simp) whole, ?_, start.trans (place_front hk ls).symm⟩
      have read (p q : Place) : expr? (.node .letExpression p [.node .letRun q (vs ++ us), t]) =
          some (.led p .binding gs.flatten e) := by
        simp only [expr?, hc, he, Option.bind_eq_bind, Option.bind_some]
      exact (read _ _).trans (congrArg (fun p => some (Expr.led p .binding gs.flatten e)) start)
  · intro here next hl hn
    obtain ⟨m, us, t, hr, hc, hs, ht, he, looks⟩ := split hl hn
    have stop : outcome (.rule .letClause) m = none := outcome_none_of_looks looks rfl (by decide)
    have clauses := many_of_repeats (r := .letClauses) rfl rfl hr stop
    exact inOrder_of_some_none clauses
      (inOrder_of_none (terminal_none_of_looks looks (by decide)))

/-- What is no conditional expression is found where one is tried first. -/
theorem found_unconditional (h : Closed (.tier .disjunction) e ks) : Closed .ternary e ks := by
  intro here next hl hn
  obtain ⟨t, ht, he, hs⟩ := h hl (hn.mono (by simp [Level.follow, Tier.follow]))
  have looks : Looks here (Piece.rule .disjunction).firsts := looks_of_outcome rfl (by decide) ht
  have ternary : outcome (.rule .ternary) here = none :=
    sequence_of_none rfl (inOrder_of_some_none ht (inOrder_of_none
      (terminal_none_of_looks hn (by decide))))
  refine ⟨t, choice_of_split [.rule .echoExpression, .rule .assertExpression, .rule .ternary] rfl
    ?_ ht, he, hs⟩
  rw [List.forall_mem_cons, List.forall_mem_cons, List.forall_mem_singleton]
  exact ⟨outcome_none_of_looks looks rfl (by decide), outcome_none_of_looks looks rfl (by decide),
    ternary⟩

/-- A word or a name and arguments in parentheses, with what comes after them. -/
theorem inOrder_arguments {p : Piece} {as : List Argument} {us : List Tree}
    (hp : outcome p here = some (us, there)) (ho : o.IsMark .openParen)
    (ha : Found (.arguments as) ks) (hc : c.IsMark .closeParen)
    (hl : Laid there (o :: (ks ++ c :: ls)) next) :
    ∃ m q vs, Laid m ls next ∧ arguments? vs = some as ∧
      ∀ {qs : List Piece} {ts : List Tree} {last : Cursor}, outcome.inOrder qs m = some (ts, last) →
        outcome.inOrder ([p, mark .openParen, .rule .arguments, mark .closeParen] ++ qs) here =
          some (us ++ .leaf (.mark .openParen) o.start o.text :: .node .arguments q vs ::
            .leaf (.mark .closeParen) c.start c.text :: ts, last) := by
  obtain ⟨a, hato, b, hl, m, hatc, hl'⟩ := by
    simpa only [laid_append_iff, laid_cons_iff] using hl
  obtain ⟨q, vs, hv, hread⟩ := arguments_of_found ha hl (hatc.looks hc)
  exact ⟨m, q, vs, hl', hread, fun h => inOrder_cons hp (inOrder_cons (hato.matches rfl ho)
    (inOrder_cons hv (inOrder_cons (hatc.matches rfl hc) h)))⟩

/-- A message or an assertion before an expression is found. -/
theorem found_led {l : Lead} (hl : l ≠ .binding) {as : List Argument} (hk : k.IsWord l.keyword)
    (ho : o.IsMark .openParen) (ha : Found (.arguments as) ks) (hc : c.IsMark .closeParen)
    (he : Closed .expression e ls) :
    Closed .ternary (.led k.start l as e) (k :: o :: (ks ++ c :: ls)) := by
  intro here next hlaid hn
  obtain ⟨a, hat, hlaid⟩ := laid_cons_iff.1 hlaid
  obtain ⟨m, q, vs, hl', hread, before⟩ :=
    inOrder_arguments (hat.matches rfl hk) ho ha hc hlaid
  obtain ⟨t, ht, hte, -⟩ := he hl' hn
  have all := before (inOrder_cons ht (inOrder_nil next))
  cases l with
  | binding => exact absurd rfl hl
  | echo =>
    have whole := sequence_of_inOrder (r := .echoExpression) rfl all
    exact ⟨_, choice_of_split [] rfl (by simp) whole, by simp [expr?, hread, hte, firstStart,
      Tree.start?], rfl⟩
  | assertion =>
    have whole := sequence_of_inOrder (r := .assertExpression) rfl all
    have before := none_of_looks (hat.looks hk) [.rule .echoExpression] (by decide)
    exact ⟨_, choice_of_split [.rule .echoExpression] rfl before whole, by simp [expr?, hread, hte,
      firstStart, Tree.start?], rfl⟩

/-- A conditional expression is found. -/
theorem found_ternary {a b : Expr} (hk : ks ≠ []) (h : Closed (.tier .disjunction) e ks)
    (hq : o.IsMark .question) (ha : Closed .expression a ls) (hc : c.IsMark .colon)
    (hb : Closed .expression b ms) :
    Closed .ternary (.ternary (place ks) e a b) (ks ++ o :: (ls ++ c :: ms)) := by
  intro here next hl hn
  obtain ⟨x, hle, y, hatq, z, hla, w, hatc, hlb⟩ := by
    simpa only [laid_append_iff, laid_cons_iff] using hl
  obtain ⟨t, ht, hte, hs⟩ := h hle ((hatq.looks hq).mono (by decide))
  obtain ⟨u, hu, hue, -⟩ := ha hla ((hatc.looks hc).mono (by decide))
  obtain ⟨v, hv, hve, -⟩ := hb hlb hn
  have whole := sequence_of_inOrder (r := .ternary) rfl
    (inOrder_cons ht (inOrder_cons (hatq.matches rfl hq) (inOrder_cons hu
      (inOrder_cons (hatc.matches rfl hc) (inOrder_cons hv (inOrder_nil next))))))
  have looks : Looks here (Piece.rule .disjunction).firsts := looks_of_outcome rfl (by decide) ht
  have before := none_of_looks looks [.rule .echoExpression, .rule .assertExpression]
    (by decide)
  have start := firstStart_cons hs hk
  have read (p : Place) (x y : Tree) :
      expr? (.node .ternary p [t, x, u, y, v]) = some (.ternary p e a b) := by
    simp only [expr?, hte, hue, hve, Option.bind_eq_bind, Option.bind_some]
  exact ⟨_, choice_of_split [.rule .echoExpression, .rule .assertExpression] rfl before whole,
    (read _ _ _).trans (congrArg (fun p => some (Expr.ternary p e a b)) (start _)),
    (start _).trans (place_front hk _).symm⟩

/-! ### Operands and accesses -/

/-- A sign before an operand is found. -/
theorem found_signed {e' : Expr} (hk : Terminal.unary.Accepts k) (h : Closed .unary e ks)
    (he : signed? k.start k.text e = some e') : Closed .unary e' (k :: ks) := by
  intro here next hl hn
  obtain ⟨a, hat, hl⟩ := laid_cons_iff.1 hl
  obtain ⟨t, ht, hte, -⟩ := h hl hn
  have whole := sequence_of_inOrder (r := .signed) rfl
    (inOrder_cons (hat.matches rfl hk) (inOrder_cons ht (inOrder_nil next)))
  exact ⟨_, choice_of_split [] rfl (by simp) whole, by simp [expr?, hte, firstStart, Tree.start?, he],
    rfl⟩

/-- What has no sign is found where one is tried first. -/
theorem found_unsigned (h : Closed .access e ks) : Closed .unary e ks := by
  intro here next hl hn
  obtain ⟨t, ht, hte, hs⟩ := h hl hn
  have looks : Looks here (Piece.rule .access).firsts := looks_of_outcome rfl (by decide) ht
  exact ⟨t, choice_of_split [.rule .signed] rfl (none_of_looks looks _ (by decide)) ht, hte, hs⟩

/-- An access to a field is found. -/
theorem found_member (hp : Terminal.period.Accepts o) (hn : k.IsName) :
    Found (.suffix (.member k.text)) [o, k] := by
  intro here next hl
  obtain ⟨a, hato, b, hatk, rfl⟩ := by simpa only [laid_cons_iff, laid_nil_iff] using hl
  have whole := sequence_of_inOrder (r := .memberSuffix) rfl
    (inOrder_cons (hato.matches rfl hp) (inOrder_cons (hatk.matches rfl hn) (inOrder_nil next)))
  exact ⟨_, choice_of_split [] rfl (by simp) whole, fun p e ts => by simp [suffixes?, Suffix.onto]⟩

/-- An access at an index is found. -/
theorem found_index (ho : o.IsMark .openBracket) (h : Closed .expression e ks)
    (hc : c.IsMark .closeBracket) : Found (.suffix (.index e)) (o :: (ks ++ [c])) := by
  intro here next hl
  obtain ⟨a, hato, m, hl, n, hatc, rfl⟩ := by
    simpa only [laid_append_iff, laid_cons_iff, laid_nil_iff] using hl
  obtain ⟨t, ht, hte, -⟩ := h hl ((hatc.looks hc).mono (by decide))
  have whole := sequence_of_inOrder (r := .indexSuffix) rfl
    (inOrder_cons (hato.matches rfl ho) (inOrder_cons ht
      (inOrder_cons (hatc.matches rfl hc) (inOrder_nil next))))
  have before := none_of_looks (hato.looks ho) [.rule .memberSuffix] (by decide)
  exact ⟨_, choice_of_split [.rule .memberSuffix] rfl before whole,
    fun p e ts => by simp [suffixes?, Suffix.onto, hte]⟩

/-- A group of bindings before others is found. -/
theorem found_clause {as : List Argument} {gs : List (List Argument)} (hk : k.IsWord .letWord)
    (ho : o.IsMark .openParen) (ha : Found (.arguments as) ks) (hc : c.IsMark .closeParen)
    (hg : Found (.clauses gs) ls) : Found (.clauses (as :: gs)) (k :: o :: (ks ++ c :: ls)) := by
  intro here next hl
  obtain ⟨a, hat, hl⟩ := laid_cons_iff.1 hl
  obtain ⟨m, q, vs, hl', hread, before⟩ := inOrder_arguments (hat.matches rfl hk) ho ha hc hl
  obtain ⟨us, hr, hread', -⟩ := hg hl'
  have clause := sequence_of_inOrder (r := .letClause) rfl (before (inOrder_nil m))
  refine ⟨_, .cons (inOrder_cons clause (inOrder_nil m)) hr, ?_, rfl⟩
  show clauses? (.node .letClause _ [_, _, .node .arguments q vs, _] :: us) = some (as :: gs)
  simp [clauses?, hread, hread']

/-! ### Primaries -/

/-- An expression in parentheses is found. -/
theorem found_parenthesized (ho : o.IsMark .openParen) (h : Closed .expression e ks)
    (hc : c.IsMark .closeParen) : Closed .primary e (o :: (ks ++ [c])) := by
  intro here next hl hn
  obtain ⟨a, hato, m, hl, n, hatc, rfl⟩ := by
    simpa only [laid_append_iff, laid_cons_iff, laid_nil_iff] using hl
  obtain ⟨t, ht, hte, -⟩ := h hl ((hatc.looks hc).mono (by decide))
  have whole := sequence_of_inOrder (r := .parenthesized) rfl
    (inOrder_cons (hato.matches rfl ho) (inOrder_cons ht
      (inOrder_cons (hatc.matches rfl hc) (inOrder_nil next))))
  exact ⟨_, choice_of_split [] rfl (by simp) whole, (expr?_parenthesized _ _ _ _).trans hte, rfl⟩

/-- The alternatives of a primary expression up to a terminal fail where the terminal matches. -/
theorem primary_of_terminal {t : Terminal} (qs : List Piece) {ps : List Piece}
    (hr : Rule.primary.production = .choice (qs ++ .term t :: ps)) (ht : looksAtToken t = true)
    (hq : (qs.all fun p => !p.nullable && p.firsts.all fun u => excludes t u) = true)
    (hk : t.Accepts k) (he : expr? (.leaf t k.start k.text) = some e) : Closed .primary e [k] := by
  intro here next hl _
  obtain ⟨a, hat, rfl⟩ := by simpa only [laid_cons_iff, laid_nil_iff] using hl
  have before := none_of_looks (hat.looks hk) qs (by simpa using hq)
  exact ⟨_, choice_of_split qs hr before (hat.matches ht hk), he, rfl⟩

/-- A literal is found. -/
theorem found_literal {w : Keyword} (hk : k.IsWord w) (he : Expr.ofKeyword? k.start w = some e) :
    Closed .primary e [k] := by
  cases w <;> cases he
  · exact primary_of_terminal [.rule .parenthesized, .word .undefWord] rfl rfl (by decide) hk
      (by simp [expr?])
  · exact primary_of_terminal [.rule .parenthesized, .word .undefWord, .word .trueWord] rfl rfl
      (by decide) hk (by simp [expr?])
  · exact primary_of_terminal [.rule .parenthesized] rfl rfl (by decide) hk (by simp [expr?])

theorem found_text (hk : Terminal.string.Accepts k) :
    Closed .primary (.text k.start (inner k.text)) [k] :=
  primary_of_terminal
    [.rule .parenthesized, .word .undefWord, .word .trueWord, .word .falseWord] rfl rfl (by decide)
    hk (by simp [expr?])

/-- A number is found if it has a value. -/
theorem found_number {v : Number.Double} (hk : Terminal.number.Accepts k)
    (hv : Number.Numeral.value? k.text = some v) : Closed .primary (.number k.start v) [k] :=
  primary_of_terminal
    [.rule .parenthesized, .word .undefWord, .word .trueWord, .word .falseWord, .term .string]
    rfl rfl (by decide) hk (by simp [expr?, hv])

/-- The alternatives of a primary expression before those that start with a name or a bracket. -/
def plainPrimaries : List Piece :=
  [.rule .parenthesized, .word .undefWord, .word .trueWord, .word .falseWord, .term .string,
    .term .number]

/-- The last alternative of a primary expression, where no arguments follow. -/
theorem found_name (hk : k.IsName) : Closed .primary (.variable k.start k.text) [k] := by
  intro here next hl hn
  obtain ⟨a, hat, rfl⟩ := by simpa only [laid_cons_iff, laid_nil_iff] using hl
  have name := hat.matches rfl hk
  have call : outcome (.rule .functionCall) here = none :=
    sequence_of_none rfl (inOrder_of_some_none name
      (inOrder_of_none (terminal_none_of_looks hn (by decide))))
  have plain := none_of_looks (hat.looks hk) plainPrimaries (by decide)
  have bracketed := none_of_looks (hat.looks hk)
    [.rule .comprehension, .rule .range, .rule .vector] (by decide)
  refine ⟨_, choice_of_split (plainPrimaries ++ .rule .functionCall ::
    [.rule .comprehension, .rule .range, .rule .vector]) rfl ?_ name, by simp [expr?], rfl⟩
  rw [List.forall_mem_append, List.forall_mem_cons]
  exact ⟨plain, call, bracketed⟩

/-- A call is found, and not taken for the name alone. -/
theorem found_call {as : List Argument} (hk : k.IsName) (ho : o.IsMark .openParen)
    (ha : Found (.arguments as) ks) (hc : c.IsMark .closeParen) :
    Closed .primary (.call k.start k.text as) (k :: o :: (ks ++ [c])) := by
  intro here next hl _
  obtain ⟨a, hat, hl⟩ := laid_cons_iff.1 hl
  obtain ⟨m, q, vs, hl', hread, before⟩ := inOrder_arguments (hat.matches rfl hk) ho ha hc hl
  obtain rfl := laid_nil_iff.1 hl'
  have whole := sequence_of_inOrder (r := .functionCall) rfl (before (inOrder_nil next))
  have plain := none_of_looks (hat.looks hk) plainPrimaries (by decide)
  exact ⟨_, choice_of_split plainPrimaries rfl plain whole,
    by simp [expr?, hread, firstStart, Tree.start?], rfl⟩

/-- The three forms in brackets are tried one after the other. -/
theorem before_bracketed (hat : At here o there) (ho : o.IsMark .openBracket) :
    ∀ q ∈ plainPrimaries ++ [.rule .functionCall], outcome q here = none :=
  none_of_looks (hat.looks ho) _ (by decide)

/-- A comprehension is found. -/
theorem found_comprehension {f p q : Token} {gs : List (List Argument)} {as : List Argument}
    (ho : o.IsMark .openBracket) (hg : Found (.clauses gs) ks) (hf : f.IsWord .forWord)
    (hp : p.IsMark .openParen) (ha : Found (.arguments as) ls) (hc : c.IsMark .closeParen)
    (he : Closed .expression e ms) (hq : q.IsMark .closeBracket) :
    Closed .primary (.comprehension o.start gs as e)
      (o :: (ks ++ f :: p :: (ls ++ c :: (ms ++ [q])))) := by
  intro here next hl _
  obtain ⟨a, hato, hl⟩ := laid_cons_iff.1 hl
  obtain ⟨b, hlg, hl⟩ := laid_append_iff.1 hl
  obtain ⟨d, hatf, hl⟩ := laid_cons_iff.1 hl
  obtain ⟨m, x, vs, hl, hread, before⟩ := inOrder_arguments (hatf.matches rfl hf) hp ha hc hl
  obtain ⟨n, hle, r, hatq, rfl⟩ := by
    simpa only [laid_append_iff, laid_cons_iff, laid_nil_iff] using hl
  obtain ⟨t, ht, hte, -⟩ := he hle ((hatq.looks hq).mono (by decide))
  obtain ⟨us, hr, hgs, -⟩ := hg hlg
  have clauses := many_of_repeats (r := .letClauses) rfl rfl hr
    (outcome_none_of_looks (hatf.looks hf) rfl (by decide))
  have whole := sequence_of_inOrder (r := .comprehension) rfl
    (inOrder_cons (hato.matches rfl ho) (inOrder_cons clauses
      (before (inOrder_cons ht (inOrder_cons (hatq.matches rfl hq) (inOrder_nil next))))))
  refine ⟨_, choice_of_split (plainPrimaries ++ [.rule .functionCall]) rfl
    (before_bracketed hato ho) whole, ?_, rfl⟩
  show expr? (.node .comprehension (some o.start) [_, .node .letClauses _ us, _, _,
    .node .arguments x vs, _, t, _]) = _
  simp [expr?, hread, hgs, hte]

/-- What is no loop is no comprehension. -/
theorem comprehension_none (hat : At here o there) (ho : o.IsMark .openBracket)
    (h : NoLoop there) : outcome (.rule .comprehension) here = none :=
  sequence_of_none rfl (inOrder_of_some_none (hat.matches rfl ho)
    (inOrder_append_of_none _ h))

/-- A range, from the match of what stands after its second expression. -/
theorem range_of_step {a b : Expr} {m : Token} {x : Cursor} {p : Place} {us : List Tree}
    (ho : o.IsMark .openBracket) (ha : Whole a ks) (hm : m.IsMark .colon)
    (hb : Closed .expression b ls) (hc : c.IsMark .closeBracket)
    (hl : Laid here (o :: (ks ++ m :: ls)) there) (hn : Looks there enders)
    (step : outcome (.rule .rangeStep) there = some ([.node .rangeStep p us], x))
    (hat : At x c next) :
    ∃ q t y u z, expr? t = some a ∧ expr? u = some b ∧ outcome (.rule .primary) here =
      some ([.node .range (some o.start) [q, t, y, u, .node .rangeStep p us, z]], next) := by
  obtain ⟨y, hato, z, hla, w, hatm, hlb⟩ := by
    simpa only [laid_append_iff, laid_cons_iff] using hl
  have colon : Looks z enders := (hatm.looks hm).mono (by decide)
  obtain ⟨t, ht, hta, -⟩ := ha.1 hla colon
  obtain ⟨u, hu, hub, -⟩ := hb hlb hn
  have whole := sequence_of_inOrder (r := .range) rfl
    (inOrder_cons (hato.matches rfl ho) (inOrder_cons ht (inOrder_cons (hatm.matches rfl hm)
      (inOrder_cons hu (inOrder_cons step
        (inOrder_cons (hat.matches rfl hc) (inOrder_nil next)))))))
  refine ⟨_, t, _, u, _, hta, hub, choice_of_split
    (plainPrimaries ++ [.rule .functionCall] ++ [.rule .comprehension]) rfl ?_ whole⟩
  rw [List.forall_mem_append, List.forall_mem_singleton]
  exact ⟨before_bracketed hato ho, comprehension_none hato ho (ha.2 hla colon)⟩

/-- A range without a step is found, though its first expression could start a comprehension. -/
theorem found_range {a b : Expr} {m : Token} (ho : o.IsMark .openBracket) (ha : Whole a ks)
    (hm : m.IsMark .colon) (hb : Closed .expression b ls) (hc : c.IsMark .closeBracket) :
    Closed .primary (.range o.start a none b) (o :: (ks ++ m :: (ls ++ [c]))) := by
  intro here next hl _
  have hl : Laid here ((o :: (ks ++ m :: ls)) ++ [c]) next := by simpa using hl
  obtain ⟨there, hl, hl'⟩ := laid_append_iff.1 hl
  obtain ⟨x, hat, rfl⟩ := by simpa only [laid_cons_iff, laid_nil_iff] using hl'
  have step := maybe_of_none (r := .rangeStep) rfl
    (outcome_none_of_looks (hat.looks hc) (p := .rule .stepGroup) rfl (by decide))
  obtain ⟨q, t, y, u, z, ht, hu, whole⟩ :=
    range_of_step ho ha hm hb hc hl ((hat.looks hc).mono (by decide)) step hat
  exact ⟨_, whole, by simp [expr?, ht, hu], rfl⟩

/-- A range with a step is found. -/
theorem found_steppedRange {a s b : Expr} {m m' : Token} (ho : o.IsMark .openBracket)
    (ha : Whole a ks) (hm : m.IsMark .colon) (hs : Closed .expression s ls)
    (hm' : m'.IsMark .colon) (hb : Closed .expression b ms) (hc : c.IsMark .closeBracket) :
    Closed .primary (.range o.start a (some s) b) (o :: (ks ++ m :: (ls ++ m' :: (ms ++ [c])))) := by
  intro here next hl _
  have hl : Laid here ((o :: (ks ++ m :: ls)) ++ (m' :: (ms ++ [c]))) next := by simpa using hl
  obtain ⟨there, hl, hl'⟩ := laid_append_iff.1 hl
  obtain ⟨y, hatm, x, hlb, z, hat, rfl⟩ := by
    simpa only [laid_append_iff, laid_cons_iff, laid_nil_iff] using hl'
  obtain ⟨v, hv, hvb, -⟩ := hb hlb ((hat.looks hc).mono (by decide))
  have group := sequence_of_inOrder (r := .stepGroup) rfl
    (inOrder_cons (hatm.matches rfl hm') (inOrder_cons hv (inOrder_nil x)))
  have step := maybe_of_some (r := .rangeStep) rfl group
  obtain ⟨q, t, w, u, r, ht, hu, whole⟩ :=
    range_of_step ho ha hm hs hc hl ((hatm.looks hm').mono (by decide)) step hat
  refine ⟨_, whole, ?_, rfl⟩
  show expr? (.node .range (some o.start) [q, t, w, u, .node .rangeStep _ [_, v], r]) = _
  simp [expr?, ht, hu, hvb]

/-- A vector is found where a comprehension and a range are tried first. -/
theorem found_vector {es : List Expr} (ho : o.IsMark .openBracket) (h : Found (.items es) ks)
    (hc : c.IsMark .closeBracket) : Closed .primary (.vector o.start es) (o :: (ks ++ [c])) := by
  intro here next hl _
  obtain ⟨a, hato, m, hl, n, hatc, rfl⟩ := by
    simpa only [laid_append_iff, laid_cons_iff, laid_nil_iff] using hl
  obtain ⟨⟨p, us, hu, hread⟩, noLoop, noRange⟩ := items_of_found h hl (hatc.looks hc)
  have whole := sequence_of_inOrder (r := .vector) rfl
    (inOrder_cons (hato.matches rfl ho) (inOrder_cons hu
      (inOrder_cons (hatc.matches rfl hc) (inOrder_nil next))))
  have range : outcome (.rule .range) here = none :=
    sequence_of_none rfl (inOrder_of_some_none (hato.matches rfl ho)
      (inOrder_append_of_none _ noRange))
  refine ⟨_, choice_of_split
    (plainPrimaries ++ [.rule .functionCall] ++ [.rule .comprehension, .rule .range]) rfl ?_ whole,
    by simp [expr?, hread, firstStart, Tree.start?], rfl⟩
  rw [List.forall_mem_append, List.forall_mem_cons, List.forall_mem_singleton]
  exact ⟨before_bracketed hato ho, comprehension_none hato ho noLoop, range⟩

/-! ### Arguments -/

/-- A name is an expression by itself. -/
theorem closed_name (hk : k.IsName) : Closed .expression (.variable k.start k.text) [k] := by
  have ne : [k] ≠ [] := List.cons_ne_nil _ _
  have tier {t : Tier} (h : Closed t.next (.variable k.start k.text) [k]) :
      Closed (.tier t) (.variable k.start k.text) [k] :=
    closed_of_tier ne (rounds_of_closed h)
  have access : Closed .access (.variable k.start k.text) [k] :=
    closed_of_access ne (rounds_of_closed (found_name hk))
  have whole : Whole (.variable k.start k.text) [k] :=
    found_unbound (found_unconditional (tier (t := .disjunction) (tier (t := .comparison)
      (tier (t := .sum) (tier (t := .product) (found_unsigned access))))))
  exact whole.1

/-- An argument in front of what ends it is not the name of a longer one. -/
theorem found_positional (h : Closed .expression e ks) :
    Found (.argument (.mk (place ks) none e)) ks := by
  intro here next hl hn
  obtain ⟨t, ht, hte, hs⟩ := h hl (hn.mono (by decide))
  have named : outcome (.rule .namedArgument) here = none := by
    refine sequence_of_none rfl ?_
    cases hname : outcome (.term .identifier) here with
    | none => exact inOrder_of_none hname
    | some o =>
      obtain ⟨us, m⟩ := o
      refine inOrder_of_some_none hname (inOrder_of_none ?_)
      cases hassign : outcome (.rule .assign) m with
      | none => rfl
      | some o =>
        -- the name alone would be the expression, which `=` does not follow
        obtain ⟨vs, x⟩ := o
        obtain ⟨k, hat, hk, -⟩ := at_of_terminal rfl hname
        obtain ⟨ls, hls, -, a, v, -, rfl, ha⟩ := outcome_means (by decide) hassign
        obtain ⟨y, hata, -⟩ := laid_cons_iff.1 hls
        obtain ⟨u, hu, -, -⟩ := closed_name hk (.cons hat (.nil m))
          ((hata.looks ha).mono (by decide))
        rw [ht] at hu
        cases hu
        rw [assign_none_of_looks hn (by decide)] at hassign
        cases hassign
  have whole := sequence_of_inOrder (r := .positionalArgument) rfl
    (inOrder_cons ht (inOrder_nil next))
  refine ⟨_, choice_of_split [.rule .namedArgument] rfl (by simpa using named) whole, ?_⟩
  show argument? (.node .positionalArgument _ [t]) = _
  simp [argument?, hte, firstStart, hs]

/-- An argument with a name is found. -/
theorem found_named {a : Token} (hk : k.IsName) (ha : a.IsMark .assign)
    (h : Closed .expression e ks) :
    Found (.argument (.mk k.start (some k.text) e)) (k :: a :: ks) := by
  intro here next hl hn
  obtain ⟨x, hatk, y, hata, hl⟩ := by simpa only [laid_cons_iff] using hl
  obtain ⟨t, ht, hte, -⟩ := h hl (hn.mono (by decide))
  have looks : Looks y (Piece.rule .expression).firsts := looks_of_outcome rfl (by decide) ht
  have assign := assign_of_at hata ha (terminal_none_of_looks looks (by decide))
  have whole := sequence_of_inOrder (r := .namedArgument) rfl
    (inOrder_cons (hatk.matches rfl hk) (inOrder_cons assign (inOrder_cons ht (inOrder_nil next))))
  exact ⟨_, choice_of_split [] rfl (by simp) whole,
    by simp [argument?, hte, firstStart, Tree.start?]⟩

/-! ### All phrases -/

/-- The clauses of a comprehension or a binding end where no other clause starts. -/
theorem found_noClauses : Found (.clauses []) [] := by
  intro here next hl
  obtain rfl := laid_nil_iff.1 hl
  exact ⟨[], .nil next, by simp [clauses?], rfl⟩

/-- The phrase that the tokens spell is found. -/
theorem found_of_spells {p : Phrase} {ks : List Token} (h : Spells p ks) : Found p ks := by
  induction h with
  | bound hn h he ihg ihe => exact found_bound hn (h.ne_nil hn) ihg ihe
  | unbound h ih => exact found_unbound ih
  | led hl hk ho _ hc _ iha ihe => exact found_led hl hk ho iha hc ihe.1
  | ternary h hq _ hc _ ihe iha ihb =>
    exact found_ternary h.expr_ne_nil (closed_of_found h.expr_ne_nil ihe) hq iha.1 hc ihb.1
  | unconditional h ih => exact found_unconditional (closed_of_found h.expr_ne_nil ih)
  | operand h ih => exact rounds_of_closed (closed_of_found h.expr_ne_nil ih)
  | operation ha ho hop hb iha ihb =>
    exact found_operation ha.expr_ne_nil iha ho hop (closed_of_found hb.expr_ne_nil ihb)
  | signed hk _ he ih => exact found_signed hk ih he
  | unsigned h ih => exact found_unsigned (closed_of_found h.expr_ne_nil ih)
  | base _ ih => exact rounds_of_closed ih
  | accessed h _ ih ihs => exact found_accessed h.expr_ne_nil ih ihs
  | member hp hn => exact found_member hp hn
  | index ho _ hc ih => exact found_index ho ih.1 hc
  | parenthesized ho _ hc ih => exact found_parenthesized ho ih.1 hc
  | literal hk he => exact found_literal hk he
  | text hk => exact found_text hk
  | number hk hv => exact found_number hk hv
  | name hk => exact found_name hk
  | call hn ho _ hc ih => exact found_call hn ho ih hc
  | comprehension ho _ hf hp _ hc _ hq ihg iha ihe =>
    exact found_comprehension ho ihg hf hp iha hc ihe.1 hq
  | range ho _ hm _ hc iha ihb => exact found_range ho iha hm ihb.1 hc
  | steppedRange ho _ hm _ hm' _ hc iha ihs ihb =>
    exact found_steppedRange ho iha hm ihs.1 hm' ihb.1 hc
  | vector ho _ hc ih => exact found_vector ho ih hc
  | positional _ ih => exact found_positional ih.1
  | named hn ha _ ih => exact found_named hn ha ih.1
  | noArguments | noItems => exact .none
  | lastArgument _ ih | lastItem _ ih => exact .last ih
  | closedArgument _ hc ih | closedItem _ hc ih => exact .closed ih hc
  | nextArgument _ hc _ ih ihs | nextItem _ hc _ ih ihs => exact .next ih hc ihs
  | noClauses => exact found_noClauses
  | clause hk ho _ hc _ iha ihs => exact found_clause hk ho iha hc ihs

end SolidScript.Grammar
