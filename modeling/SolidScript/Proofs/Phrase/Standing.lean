import SolidScript.Proofs.NearestIf
import SolidScript.Proofs.Phrase.Complete

/-!
# Phrase — every sealed statement that tokens spell is found

Of the two families of statements the closed one is tried first.  A statement that ends open is
refused there: what the closed statement like it wants next is an `else`, and none follows.  A
statement is found only if it is sealed (`stands_of_says`): an `else` that belongs to another `if`
than the nearest would be taken by the nearest.
-/

namespace SolidScript.Grammar
open OfTree
open Piece (mark word)
open SolidScript.Tree (firstStart gather)

variable {here there next : Cursor} {k o c : Token} {ks ls ms : List Token} {e : Expr}
  {s s' : Statement}

/-- The statement is matched from one place to the other: as a closed one or, if an `else` could go
on with it there, as an open one only. -/
def Stands (s : Statement) (here next : Cursor) : Prop :=
  ∃ t, statement? t = some s ∧
    (¬ s.Dangles → outcome (.rule .closedStatement) here = some ([t], next)) ∧
    (s.Dangles → outcome (.rule .closedStatement) here = none ∧
      outcome (.rule .openStatement) here = some ([t], next))

/-- A statement of either family is a statement. -/
theorem Stands.statement (h : Stands s here next) :
    ∃ t, outcome (.rule .statement) here = some ([t], next) ∧ statement? t = some s := by
  obtain ⟨t, ht, closed, opened⟩ := h
  by_cases hd : s.Dangles
  · obtain ⟨hc, ho⟩ := opened hd
    exact ⟨t, choice_of_split [.rule .closedStatement] rfl (by simpa using hc) ho, ht⟩
  · exact ⟨t, choice_of_split [] rfl (by simp) (closed hd), ht⟩

/-- A statement of a kind that is never open. -/
theorem stands_of_closed {p : Piece} {t : Tree} (qs : List Piece) {ps : List Piece}
    (hr : Rule.closedStatement.production = .choice (qs ++ p :: ps))
    (before : ∀ q ∈ qs, outcome q here = none) (h : outcome p here = some ([t], next))
    (hs : statement? t = some s) (hd : ¬ s.Dangles) : Stands s here next :=
  ⟨t, hs, fun _ => choice_of_split qs hr before h, fun h => absurd h hd⟩

/-- A statement that ends in another is of the family of that one. -/
theorem Stands.onto (c o : Rule) {ps qs' os' : List Piece} {ts : List Tree}
    (h : Stands s there next) (qs os : List Piece) (head : outcome.inOrder ps here = some (ts, there))
    (pc : c.production = .sequence (ps ++ [.rule .closedStatement]))
    (po : o.production = .sequence (ps ++ [.rule .openStatement]))
    (hc : Rule.closedStatement.production = .choice (qs ++ .rule c :: qs'))
    (ho : Rule.openStatement.production = .choice (os ++ .rule o :: os'))
    (fc : ∀ q ∈ qs ++ qs', outcome q here = none) (fo : ∀ q ∈ os, outcome q here = none)
    (read : ∀ r ∈ [c, o], r.isGroup = false ∧ ∀ u, statement? u = some s →
      statement? (.node r (firstStart (ts ++ [u])) (ts ++ [u])) = some s')
    (hd : s'.Dangles ↔ s.Dangles) : Stands s' here next := by
  obtain ⟨u, hu, closed, opened⟩ := h
  have match_of {r r' : Rule} (hr : r ∈ [c, o]) (pr : r.production = .sequence (ps ++ [.rule r']))
      (h : outcome (.rule r') there = some ([u], next)) :
      outcome (.rule r) here = some ([.node r (firstStart (ts ++ [u])) (ts ++ [u])], next) := by
    have last : outcome.inOrder [.rule r'] there = some ([u], next) := by
      rw [Run.inOrder_singleton, h]
    have whole := sequence_of_inOrder pr (Run.inOrder_append_eq_some_iff.2 ⟨_, _, _, head, last, rfl⟩)
    simpa only [gather, (read r hr).1, Bool.false_eq_true, if_false] using whole
  by_cases h : s.Dangles
  · obtain ⟨hclosed, hopen⟩ := opened h
    have refused : outcome (.rule c) here = none := by
      refine sequence_of_none pc ?_
      rw [Run.inOrder_append, head, Option.bind_some, Run.inOrder_singleton, hclosed]
      rfl
    refine ⟨_, (read o (by simp)).2 u hu, fun hn => absurd (hd.2 h) hn, fun _ => ⟨?_, ?_⟩⟩
    · refine (outcome_choice_eq_none_iff hc).2 fun q hq => ?_
      rcases List.mem_append.1 hq with hq | hq
      · exact fc q (List.mem_append_left _ hq)
      · rcases List.mem_cons.1 hq with rfl | hq
        · exact refused
        · exact fc q (List.mem_append_right _ hq)
    · exact choice_of_split os ho fo (match_of (by simp) po hopen)
  · have hclosed := closed h
    refine ⟨_, (read c (by simp)).2 u hu, fun _ => ?_, fun hs' => absurd (hd.1 hs') h⟩
    exact choice_of_split qs hc (fun q hq => fc q (List.mem_append_left _ hq))
      (match_of (by simp) pc hclosed)

/-! ### Parameters -/

/-- A parameter is matched where its tokens are, before a comma or the end of the list. -/
theorem parameter_of_spells {p : Parameter} (h : SpellsParameter p ks) (hl : Laid here ks next)
    (hn : Looks next [.mark .comma, .mark .closeParen]) :
    ∃ t, outcome (.rule .parameter) here = some ([t], next) ∧ parameter? t = some p := by
  cases h with
  | plain hname =>
    obtain ⟨a, hat, rfl⟩ := by simpa only [laid_cons_iff, laid_nil_iff] using hl
    have noDefault := maybe_of_none (r := .parameterDefault) rfl
      (sequence_of_none (r := .defaultGroup) rfl
        (inOrder_of_none (assign_none_of_looks hn (by decide))))
    have whole := sequence_of_inOrder (r := .parameter) rfl
      (inOrder_cons (hat.matches rfl hname) (inOrder_cons noDefault (inOrder_nil next)))
    exact ⟨_, whole, by simp [parameter?, gather, Rule.isGroup, firstStart, Tree.start?]⟩
  | withDefault hname ha he =>
    obtain ⟨x, hatn, y, hata, hl⟩ := by simpa only [laid_cons_iff] using hl
    obtain ⟨t, ht, hte, -⟩ := (found_of_spells he).1 hl (hn.mono (by decide))
    have looks : Looks y (Piece.rule .expression).firsts := looks_of_outcome rfl (by decide) ht
    have assign := assign_of_at hata ha (terminal_none_of_looks looks (by decide))
    have group := sequence_of_inOrder (r := .defaultGroup) rfl
      (inOrder_cons assign (inOrder_cons ht (inOrder_nil next)))
    have default := maybe_of_some (r := .parameterDefault) rfl group
    have whole := sequence_of_inOrder (r := .parameter) rfl
      (inOrder_cons (hatn.matches rfl hname) (inOrder_cons default (inOrder_nil next)))
    exact ⟨_, whole, by simp [parameter?, gather, Rule.isGroup, firstStart, Tree.start?, hte]⟩

/-- Parameters are matched where their tokens are, before the closing parenthesis. -/
theorem parameters_of_commas {ps : List Parameter} (h : Commas SpellsParameter ps ks)
    (hl : Laid here ks next) (hn : Looks next [.mark .closeParen]) :
    ∃ p us, outcome (.rule .parameters) here = some ([.node .parameters p us], next) ∧
      parameters? us = some ps :=
  body_of_commas readsEach_parameters .closeParen (fun h _ _ => parameter_of_spells h)
    (fun h => outcome_none_of_looks h rfl (by decide)) rfl isList_parameters h hl hn

/-! ### Statements that are never open -/

/-- A semicolon stands as a statement. -/
theorem stands_empty (hk : k.IsMark .semicolon) (hl : Laid here [k] next) :
    Stands (.empty k.start) here next := by
  obtain ⟨a, hat, rfl⟩ := by simpa only [laid_cons_iff, laid_nil_iff] using hl
  exact stands_of_closed [] rfl (by simp) (hat.matches rfl hk) (statement?_empty _ _)
    fun h => by cases h

/-- A definition of a function stands where its tokens are. -/
theorem stands_functionDefinition {f n a z : Token} {ps : List Parameter} (hf : f.IsWord .functionWord)
    (hn : n.IsName) (ho : o.IsMark .openParen) (hp : Commas SpellsParameter ps ks)
    (hc : c.IsMark .closeParen) (ha : a.IsMark .assign) (he : Spells (.expr .expression e) ls)
    (hz : z.IsMark .semicolon) (hl : Laid here (f :: n :: o :: (ks ++ c :: a :: (ls ++ [z]))) next) :
    Stands (.functionDefinition f.start n.text ps e) here next := by
  obtain ⟨x₁, hatf, x₂, hatn, x₃, hato, x₄, hlp, x₅, hatc, x₆, hata, x₇, hle, x₈, hatz, rfl⟩ := by
    simpa only [laid_append_iff, laid_cons_iff, laid_nil_iff] using hl
  obtain ⟨p, us, hus, hread⟩ := parameters_of_commas hp hlp (hatc.looks hc)
  obtain ⟨t, ht, hte, -⟩ := (found_of_spells he).1 hle ((hatz.looks hz).mono (by decide))
  have looks : Looks x₆ (Piece.rule .expression).firsts := looks_of_outcome rfl (by decide) ht
  have assign := assign_of_at hata ha (terminal_none_of_looks looks (by decide))
  have whole := sequence_of_inOrder (r := .functionDefinition) rfl
    (inOrder_cons (hatf.matches rfl hf) (inOrder_cons (hatn.matches rfl hn)
      (inOrder_cons (hato.matches rfl ho) (inOrder_cons hus
        (inOrder_cons (hatc.matches rfl hc) (inOrder_cons assign (inOrder_cons ht
          (inOrder_cons (hatz.matches rfl hz) (inOrder_nil next)))))))))
  exact stands_of_closed [mark .semicolon, .rule .block, .rule .moduleDefinition] rfl
    (none_of_looks (hatf.looks hf) _ (by decide)) whole
    (by simp [statement?, hread, hte, firstStart, Tree.start?]) fun h => by cases h

/-- An assignment stands where its tokens are. -/
theorem stands_assignment {n a z : Token} (hn : n.IsName) (ha : a.IsMark .assign)
    (he : Spells (.expr .expression e) ks) (hz : z.IsMark .semicolon)
    (hl : Laid here (n :: a :: (ks ++ [z])) next) :
    Stands (.assignment n.start n.text e) here next := by
  obtain ⟨x₁, hatn, x₂, hata, x₃, hle, x₄, hatz, rfl⟩ := by
    simpa only [laid_append_iff, laid_cons_iff, laid_nil_iff] using hl
  obtain ⟨t, ht, hte, -⟩ := (found_of_spells he).1 hle ((hatz.looks hz).mono (by decide))
  have looks : Looks x₂ (Piece.rule .expression).firsts := looks_of_outcome rfl (by decide) ht
  have assign := assign_of_at hata ha (terminal_none_of_looks looks (by decide))
  have whole := sequence_of_inOrder (r := .assignment) rfl
    (inOrder_cons (hatn.matches rfl hn) (inOrder_cons assign (inOrder_cons ht
      (inOrder_cons (hatz.matches rfl hz) (inOrder_nil next)))))
  exact stands_of_closed
    [mark .semicolon, .rule .block, .rule .moduleDefinition, .rule .functionDefinition] rfl
    (none_of_looks (hatn.looks hn) _ (by decide)) whole
    (by simp [statement?, hte, firstStart, Tree.start?]) fun h => by cases h

/-! ### What follows a statement -/

/-- No `else` stands here. -/
def NoElse (here : Cursor) : Prop := outcome (word .elseWord) here = none

/-- The statement is found where no `else` follows that it could take. -/
def Taken (s : Statement) (ks : List Token) : Prop :=
  ∀ ⦃here next : Cursor⦄, Laid here ks next → (s.EndsOpen → NoElse next) → Stands s here next

/-! ### Statements that end in another -/

/-- A definition of a module stands where its tokens are, if its body does. -/
theorem stands_moduleDefinition {m n : Token} {ps : List Parameter} (hm : m.IsWord .moduleWord)
    (hn : n.IsName) (ho : o.IsMark .openParen) (hp : Commas SpellsParameter ps ks)
    (hc : c.IsMark .closeParen) (hs : Taken s ls) :
    Taken (.moduleDefinition m.start n.text ps s) (m :: n :: o :: (ks ++ c :: ls)) := by
  intro here next hl hopen
  obtain ⟨x₁, hatm, x₂, hatn, x₃, hato, x₄, hlp, x₅, hatc, hl⟩ := by
    simpa only [laid_append_iff, laid_cons_iff] using hl
  obtain ⟨p, us, hus, hread⟩ := parameters_of_commas hp hlp (hatc.looks hc)
  obtain ⟨t, ht, hts⟩ := (hs hl fun h => hopen (by simpa using h)).statement
  have whole := sequence_of_inOrder (r := .moduleDefinition) rfl
    (inOrder_cons (hatm.matches rfl hm) (inOrder_cons (hatn.matches rfl hn)
      (inOrder_cons (hato.matches rfl ho) (inOrder_cons hus
        (inOrder_cons (hatc.matches rfl hc) (inOrder_cons ht (inOrder_nil next)))))))
  exact stands_of_closed [mark .semicolon, .rule .block] rfl
    (none_of_looks (hatm.looks hm) _ (by decide)) whole
    (by simp [statement?, hread, hts, firstStart, Tree.start?]) fun h => by cases h

/-- The condition of a conditional, up to its first branch. -/
theorem inOrder_ifHead {i : Token} (hi : i.IsWord .ifWord) (ho : o.IsMark .openParen)
    (he : Spells (.expr .expression e) ks) (hc : c.IsMark .closeParen)
    (hl : Laid here (i :: o :: (ks ++ c :: ls)) next) :
    ∃ m t, Laid m ls next ∧ expr? t = some e ∧ outcome.inOrder ifHead here =
      some ([.leaf (.keyword .ifWord) i.start i.text, .leaf (.mark .openParen) o.start o.text, t,
        .leaf (.mark .closeParen) c.start c.text], m) := by
  obtain ⟨x₁, hati, x₂, hato, x₃, hle, m, hatc, hl⟩ := by
    simpa only [laid_append_iff, laid_cons_iff] using hl
  obtain ⟨t, ht, hte, -⟩ := (found_of_spells he).1 hle ((hatc.looks hc).mono (by decide))
  exact ⟨m, t, hl, hte, inOrder_cons (hati.matches rfl hi) (inOrder_cons (hato.matches rfl ho)
    (inOrder_cons ht (inOrder_cons (hatc.matches rfl hc) (inOrder_nil m))))⟩

/-- A conditional without an `else` is open: no closed statement and no conditional with an `else`
is there. -/
theorem stands_conditional {i : Token} (hi : i.IsWord .ifWord) (ho : o.IsMark .openParen)
    (he : Spells (.expr .expression e) ks) (hc : c.IsMark .closeParen) (hs : Taken s ls) :
    Taken (.conditional i.start e s none) (i :: o :: (ks ++ c :: ls)) := by
  intro here next hl hopen
  have noElse : NoElse next := hopen (by simp)
  obtain ⟨x, hati, -⟩ := laid_cons_iff.1 hl
  obtain ⟨m, t, hl, hte, head⟩ := inOrder_ifHead hi ho he hc hl
  have branch := hs hl fun _ => noElse
  have noAlternative {r : Rule} : outcome.inOrder
      (ifHead ++ [.rule .closedStatement, word .elseWord, .rule r]) here = none := by
    obtain ⟨u, -, closed, opened⟩ := branch
    rw [Run.inOrder_append, head, Option.bind_some]
    by_cases hd : s.Dangles
    · rw [inOrder_of_none (opened hd).1]; rfl
    · rw [inOrder_of_some_none (closed hd) (inOrder_of_none noElse)]; rfl
  have closedIfElse : outcome (.rule .closedIfElse) here = none :=
    sequence_of_none rfl noAlternative
  have openIfElse : outcome (.rule .openIfElse) here = none := sequence_of_none rfl noAlternative
  obtain ⟨u, hu, hus⟩ := branch.statement
  have last : outcome.inOrder [.rule .statement] m = some ([u], next) := by
    rw [Run.inOrder_singleton, hu]
  have production : Rule.openIf.production = .sequence (ifHead ++ [.rule .statement]) := rfl
  have whole := sequence_of_inOrder production
    (Run.inOrder_append_eq_some_iff.2 ⟨_, _, _, head, last, rfl⟩)
  refine ⟨_, ?_, fun hn => absurd (.conditional _ _ _) hn, fun _ => ⟨?_, choice_of_split
    [.rule .openIfElse] rfl (by simpa using openIfElse) whole⟩⟩
  · simp [statement?, hte, hus, firstStart, Tree.start?]
  · refine (outcome_choice_eq_none_iff rfl).2 ?_
    have others : ∀ q ∈ [mark .semicolon, .rule .block, .rule .moduleDefinition,
        .rule .functionDefinition, .rule .assignment, .rule .closedModified, .rule .closedFor,
        .rule .closedCall], outcome q here = none := none_of_looks (hati.looks hi) _ (by decide)
    simpa [closedIfElse] using others

/-- A conditional with an `else` stands where its tokens are, if its first branch does not end
open. -/
theorem stands_alternative {i l : Token} {b : Statement} (hi : i.IsWord .ifWord)
    (ho : o.IsMark .openParen) (he : Spells (.expr .expression e) ks) (hc : c.IsMark .closeParen)
    (ha : Taken s ls) (hs : ¬ s.EndsOpen) (hl : l.IsWord .elseWord) (hb : Taken b ms) :
    Taken (.conditional i.start e s (some b)) (i :: o :: (ks ++ c :: (ls ++ l :: ms))) := by
  intro here next hlaid hopen
  obtain ⟨x, hati, -⟩ := laid_cons_iff.1 hlaid
  obtain ⟨m, t, hlaid, hte, head⟩ := inOrder_ifHead hi ho he hc hlaid
  obtain ⟨y, hla, z, hatl, hlb⟩ := by
    simpa only [laid_append_iff, laid_cons_iff] using hlaid
  obtain ⟨u, hus, closed, -⟩ := ha hla fun h => absurd h hs
  have first := inOrder_cons (closed fun h => hs h.endsOpen)
    (inOrder_cons (hatl.matches rfl hl) (inOrder_nil z))
  refine (hb hlb fun h => hopen (by simpa using h)).onto .closedIfElse .openIfElse
    [mark .semicolon, .rule .block, .rule .moduleDefinition, .rule .functionDefinition,
      .rule .assignment] []
    (Run.inOrder_append_eq_some_iff.2 ⟨_, _, _, head, first, rfl⟩) rfl rfl rfl rfl
    (none_of_looks (hati.looks hi) _ (by decide)) (by simp) ?_ (by simp)
  rw [List.forall_mem_cons, List.forall_mem_singleton]
  constructor
  all_goals exact ⟨rfl, fun v hv => by simp [statement?, hte, hus, hv, firstStart, Tree.start?]⟩

/-- A modifier before a statement stands where its tokens are, if the statement does. -/
theorem stands_modified {m : Modifier} (hk : Terminal.modifier.Accepts k)
    (hm : Modifier.ofText? k.text = some m) (hs : Taken s ks) :
    Taken (modify k.start m s) (k :: ks) := by
  intro here next hl hopen
  obtain ⟨x, hat, hl⟩ := laid_cons_iff.1 hl
  have head := inOrder_cons (hat.matches rfl hk) (inOrder_nil x)
  refine (hs hl fun h => hopen (by simpa using h)).onto .closedModified .openModified
    [mark .semicolon, .rule .block, .rule .moduleDefinition, .rule .functionDefinition,
      .rule .assignment, .rule .closedIfElse] [.rule .openIfElse, .rule .openIf]
    head rfl rfl rfl rfl
    (none_of_looks (hat.looks hk) _ (by decide)) (none_of_looks (hat.looks hk) _ (by decide)) ?_ (by simp)
  rw [List.forall_mem_cons, List.forall_mem_singleton]
  constructor
  all_goals exact ⟨rfl, fun v hv => by simp [statement?, hm, hv, firstStart, Tree.start?]⟩

/-- A loop stands where its tokens are, if its body does. -/
theorem stands_loop {f : Token} {as : List Argument} (hf : f.IsWord .forWord)
    (ho : o.IsMark .openParen) (ha : Spells (.arguments as) ks) (hc : c.IsMark .closeParen)
    (hs : Taken s ls) : Taken (.loop f.start as s none) (f :: o :: (ks ++ c :: ls)) := by
  intro here next hl hopen
  obtain ⟨x, hat, hl⟩ := laid_cons_iff.1 hl
  obtain ⟨m, q, vs, hl, hread, before⟩ :=
    inOrder_arguments (hat.matches rfl hf) ho (found_of_spells ha) hc hl
  have head := before (inOrder_nil m)
  refine (hs hl fun h => hopen (by simpa using h)).onto .closedFor .openFor
    [mark .semicolon, .rule .block, .rule .moduleDefinition, .rule .functionDefinition,
      .rule .assignment, .rule .closedIfElse, .rule .closedModified]
    [.rule .openIfElse, .rule .openIf, .rule .openModified] head rfl rfl rfl rfl
    (none_of_looks (hat.looks hf) _ (by decide)) (none_of_looks (hat.looks hf) _ (by decide)) ?_ (by simp)
  rw [List.forall_mem_cons, List.forall_mem_singleton]
  constructor
  all_goals exact ⟨rfl, fun v hv => by simp [statement?, hread, hv, firstStart, Tree.start?]⟩

/-- What a call starts with. -/
def callees : List Terminal := (Piece.rule .callName).firsts

/-- The name of a module that is called is matched where its token is. -/
theorem callee_of_at {n : Token} (hn : n.IsCallee) (hat : At here n next) :
    Looks here callees ∧
      ∃ t, outcome (.rule .callName) here = some ([.leaf t n.start n.text], next) := by
  have found {t : Terminal} (qs : List Piece) {ps : List Piece}
      (hr : Rule.callName.production = .choice (qs ++ .term t :: ps)) (ht : looksAtToken t = true)
      (hq : (qs.all fun p => !p.nullable && p.firsts.all fun u => excludes t u) = true)
      (mem : t ∈ callees) (ha : t.Accepts n) : Looks here callees ∧
        ∃ t, outcome (.rule .callName) here = some ([.leaf t n.start n.text], next) :=
    ⟨(hat.looks ha).mono (by simpa using mem), t, choice_of_split qs hr
      (none_of_looks (hat.looks ha) _ (by simpa using hq)) (hat.matches ht ha)⟩
  rcases hn with hn | hn | hn | hn
  · exact found [] rfl rfl rfl (by decide) hn
  · exact found [.term .identifier] rfl rfl (by decide) (by decide) hn
  · exact found [.term .identifier, .word .echoWord] rfl rfl (by decide) (by decide) hn
  · exact found [.term .identifier, .word .echoWord, .word .letWord] rfl rfl (by decide)
      (by decide) hn

/-- A call is no assignment. -/
theorem assignment_none {n : Token} (hn : n.IsCallee) (hat : At here n there)
    (h : Looks there [.mark .openParen]) : outcome (.rule .assignment) here = none := by
  rcases hn with hn | hn | hn | hn
  · exact sequence_of_none rfl (inOrder_of_some_none (hat.matches rfl hn)
      (inOrder_of_none (assign_none_of_looks h (by decide))))
  all_goals exact outcome_none_of_looks (hat.looks hn) rfl (by decide)

/-- A call of a module stands where its tokens are, if its child does. -/
theorem stands_call {n : Token} {as : List Argument} (hn : n.IsCallee) (ho : o.IsMark .openParen)
    (ha : Spells (.arguments as) ks) (hc : c.IsMark .closeParen) (hs : Taken s ls) :
    Taken (.call n.start n.text as s none) (n :: o :: (ks ++ c :: ls)) := by
  intro here next hl hopen
  obtain ⟨x, hat, hl⟩ := laid_cons_iff.1 hl
  obtain ⟨y, hato, -⟩ := laid_cons_iff.1 hl
  obtain ⟨looks, t, callee⟩ := callee_of_at hn hat
  obtain ⟨m, q, vs, hl, hread, before⟩ := inOrder_arguments callee ho (found_of_spells ha) hc hl
  have head := before (inOrder_nil m)
  have others := none_of_looks looks
    [mark .semicolon, .rule .block, .rule .moduleDefinition, .rule .functionDefinition,
      .rule .closedIfElse, .rule .closedModified, .rule .closedFor] (by decide)
  refine (hs hl fun h => hopen (by simpa using h)).onto .closedCall .openCall
    [mark .semicolon, .rule .block, .rule .moduleDefinition, .rule .functionDefinition,
      .rule .assignment, .rule .closedIfElse, .rule .closedModified, .rule .closedFor]
    [.rule .openIfElse, .rule .openIf, .rule .openModified, .rule .openFor] head rfl rfl rfl rfl
    ?_ (none_of_looks looks _ (by decide)) ?_ (by simp)
  · simpa [assignment_none hn hat (hato.looks ho)] using others
  · rw [List.forall_mem_cons, List.forall_mem_singleton]
    constructor
    all_goals exact ⟨rfl, fun v hv => by simp [statement?, hread, hv, firstStart, Tree.start?]⟩

/-! ### References and statements -/

/-- A reference starts with a name after which an angle bracket stands, and ends behind that. -/
theorem tokenAt_of_reference {w u r : Text} (hw : w ∈ Lexeme.referenceWords)
    (h : Lexeme.reference w (afterSkip here).rest = some (u, r)) :
    ∃ k next x, tokenAt here = some (k, next) ∧ k.IsName ∧ (afterSkip next).rest = '<' :: x ∧
      r.length ≤ x.length := by
  obtain ⟨s, hs⟩ := front_of_reference hw h
  obtain ⟨b, p, rfl, hr, hb, -⟩ := Lexeme.reference_eq_some_iff.1 h
  have split := (front_splits hs).1
  rw [hr] at split
  obtain rfl : s = b ++ '<' :: (p ++ '>' :: r) := by simpa using split
  refine ⟨⟨.identifier, w, _⟩, _, p ++ '>' :: r, by rw [tokenAt, hs]; rfl, rfl, ?_, by simp; omega⟩
  have blanks : Reader.all Text.isBlank (b ++ '<' :: (p ++ '>' :: r)) =
      some (b, '<' :: (p ++ '>' :: r)) := Reader.all_append hb (by simp only [Reader.stops]; decide)
  have skipped : skip (b ++ '<' :: (p ++ '>' :: r)) = some (b ++ [], '<' :: (p ++ '>' :: r)) :=
    Reader.andThen_eq_some_iff.2 ⟨b, _, [], blanks, Reader.many_of_none rfl, rfl⟩
  simp [afterSkip, Cursor.read, skipped]

/-- A terminal for references reads one. -/
theorem reference_of_terminal {t : Terminal} (ht : t = .useFile ∨ t = .includeFile)
    {v : List Tree × Cursor} (h : Run.terminal t here = some v) :
    ∃ w ∈ Lexeme.referenceWords, ∃ u r, Lexeme.reference w (afterSkip here).rest = some (u, r) := by
  obtain ⟨⟨_, _⟩, hu, -⟩ := Option.map_eq_some_iff.1 h
  obtain ⟨⟨u, r⟩, hr, -⟩ := Option.map_eq_some_iff.1 hu
  rcases ht with rfl | rfl
  · exact ⟨Text.lit "use", by decide, u, r, hr⟩
  · exact ⟨Text.lit "include", by decide, u, r, hr⟩

/-- A statement starts with one of a few tokens, and a name with which it starts is followed by one
of two. -/
theorem front_of_says (h : Says (.statement s) ks) :
    ∃ k ls, ks = k :: ls ∧ (∃ t ∈ (Piece.rule .statement).firsts, t.Accepts k) ∧
      (k.IsName → ∃ o ms, ls = o :: ms ∧ (o.IsMark .assign ∨ o.IsMark .openParen)) := by
  have other {k : Token} {t : Terminal} (hk : t.Accepts k) (ht : t.apart .identifier = true) :
      ¬ k.IsName := Terminal.not_accepts_of_apart ht hk
  cases h with
  | empty hk => exact ⟨_, _, rfl, ⟨_, by decide, hk⟩, fun h => absurd h (other hk rfl)⟩
  | block hk => exact ⟨_, _, rfl, ⟨_, by decide, hk⟩, fun h => absurd h (other hk rfl)⟩
  | moduleDefinition hk => exact ⟨_, _, rfl, ⟨_, by decide, hk⟩, fun h => absurd h (other hk rfl)⟩
  | functionDefinition hk =>
    exact ⟨_, _, rfl, ⟨_, by decide, hk⟩, fun h => absurd h (other hk rfl)⟩
  | conditional hk => exact ⟨_, _, rfl, ⟨_, by decide, hk⟩, fun h => absurd h (other hk rfl)⟩
  | alternative hk => exact ⟨_, _, rfl, ⟨_, by decide, hk⟩, fun h => absurd h (other hk rfl)⟩
  | modified hk => exact ⟨_, _, rfl, ⟨_, by decide, hk⟩, fun h => absurd h (other hk rfl)⟩
  | loop hk => exact ⟨_, _, rfl, ⟨_, by decide, hk⟩, fun h => absurd h (other hk rfl)⟩
  | assignment hn ha => exact ⟨_, _, rfl, ⟨_, by decide, hn⟩, fun _ => ⟨_, _, rfl, .inl ha⟩⟩
  | call hn ho =>
    refine ⟨_, _, rfl, ?_, fun _ => ⟨_, _, rfl, .inr ho⟩⟩
    rcases hn with hn | hn | hn | hn <;> exact ⟨_, by decide, hn⟩

/-- No reference is matched where a statement starts. -/
theorem reference_none {t : Terminal} (ht : t = .useFile ∨ t = .includeFile)
    (h : Says (.statement s) ks) (hl : Laid here ks next) : Run.terminal t here = none := by
  cases hm : Run.terminal t here with
  | none => rfl
  | some r =>
    exfalso
    obtain ⟨w, hw, u, v, hr⟩ := reference_of_terminal ht hm
    obtain ⟨k', m', x, hk', hn', hx, -⟩ := tokenAt_of_reference hw hr
    obtain ⟨k, ls, rfl, ⟨u, hu, ha⟩, hname⟩ := front_of_says h
    obtain ⟨m, hat, hl⟩ := laid_cons_iff.1 hl
    have same := hat.tokenAt ha ((by decide : ∀ u ∈ (Piece.rule .statement).firsts,
      u ∉ [.useFile, .includeFile]) u hu)
    rw [hk'] at same
    cases same
    obtain ⟨o, ms, rfl, ho⟩ := hname hn'
    obtain ⟨n, hato, -⟩ := laid_cons_iff.1 hl
    have first := hato.rest.1
    rw [hx] at first
    rcases ho with ho | ho <;> (rw [ho.2] at first; cases first)

/-- No statement starts with `else`. -/
theorem noElse_of_statement (h : Says (.statement s) ks) (hl : Laid here ks next) :
    NoElse here := by
  obtain ⟨k, ls, rfl, ⟨t, ht, ha⟩, -⟩ := front_of_says h
  obtain ⟨m, hat, -⟩ := laid_cons_iff.1 hl
  have looks : Looks here (Piece.rule .statement).firsts := ⟨k, m, hat, t, ht, ha⟩
  exact terminal_none_of_looks looks (by decide)

/-- No reference starts with `else`. -/
theorem noElse_of_reference {t : Terminal} (ht : t = .useFile ∨ t = .includeFile)
    (hk : t.Accepts k) (hat : At here k next) : NoElse here := by
  have matched := hat.terminal (by rcases ht with rfl | rfl <;> rfl) hk
  obtain ⟨w, hw, u, v, hr⟩ := reference_of_terminal ht matched
  obtain ⟨l, m, x, hl, hn, -⟩ := tokenAt_of_reference hw hr
  exact terminal_none_of_looks (At.looks (.plain hl) hn) (by decide)

/-- At the end of a source no terminal matches but the one for the end. -/
theorem terminal_none_of_end {t : Terminal} (ht : t ≠ .endOfInput)
    (h : (afterSkip here).rest = []) : Run.terminal t here = none := by
  cases hm : Run.terminal t here with
  | none => rfl
  | some o =>
    obtain ⟨_, hu, -⟩ := Option.map_eq_some_iff.1 hm
    obtain ⟨⟨u, r⟩, hr, -⟩ := Option.map_eq_some_iff.1 hu
    rw [h] at hr
    have split := t.splits_reader.append_eq hr
    exact absurd (List.append_eq_nil_iff.1 split).1 ((Terminal.takes_reader ht).ne_nil hr)

/-! ### Lists of statements -/

/-- The passage is found where its statements are sealed. -/
def Ready : Passage → List Token → Prop
  | .statement s, ks => (Node.statement s).Sealed → Taken s ks
  | .statements ss, ks => (∀ s ∈ ss, (Node.statement s).Sealed) → ∀ ⦃here next : Cursor⦄,
    Laid here ks next → Looks next [.mark .closeBrace] →
      ∃ us, Repeats [.rule .statement] here us next ∧ statements? us = some ss
  | .script ss, ks => (∀ s ∈ ss, (Node.statement s).Sealed) → ∀ ⦃here next : Cursor⦄,
    Laid here ks next → (afterSkip next).rest = [] →
      ∃ us, Repeats [.rule .topStatement] here us next ∧ statements? us = some ss

/-- A block stands where its tokens are, if its statements do. -/
theorem stands_block {ss : List Statement} (ho : o.IsMark .openBrace)
    (hs : Ready (.statements ss) ks) (hc : c.IsMark .closeBrace) :
    Ready (.statement (.block o.start ss)) (o :: (ks ++ [c])) := by
  intro sealed here next hl _
  obtain ⟨x, hato, m, hl, n, hatc, rfl⟩ := by
    simpa only [laid_append_iff, laid_cons_iff, laid_nil_iff] using hl
  obtain ⟨us, hr, hread⟩ := hs (by simpa using sealed) hl (hatc.looks hc)
  have items := many_of_repeats (r := .blockItems) rfl rfl hr
    (outcome_none_of_looks (hatc.looks hc) rfl (by decide))
  have whole := sequence_of_inOrder (r := .block) rfl
    (inOrder_cons (hato.matches rfl ho) (inOrder_cons items
      (inOrder_cons (hatc.matches rfl hc) (inOrder_nil next))))
  refine stands_of_closed [mark .semicolon] rfl (none_of_looks (hato.looks ho) _ (by decide)) whole ?_
    fun h => by cases h
  show statement? (.node .block (some o.start) [_, .node .blockItems _ us, _]) = _
  simp [statement?, hread]

/-- No `else` is where the statements of a block start, or where the brace behind them is. -/
theorem noElse_of_statements {ss : List Statement} (h : Says (.statements ss) ks)
    (hl : Laid here ks next) (hn : Looks next [.mark .closeBrace]) : NoElse here := by
  cases h with
  | noStatements =>
    obtain rfl := laid_nil_iff.1 hl
    exact terminal_none_of_looks hn (by decide)
  | nextStatement h _ =>
    obtain ⟨m, hl, -⟩ := laid_append_iff.1 hl
    exact noElse_of_statement h hl

/-- No `else` is where a script starts. -/
theorem noElse_of_script {ss : List Statement} (h : Says (.script ss) ks)
    (hl : Laid here ks next) (hn : (afterSkip next).rest = []) : NoElse here := by
  cases h with
  | emptyScript =>
    obtain rfl := laid_nil_iff.1 hl
    exact terminal_none_of_end (by decide) hn
  | ordinary h _ =>
    obtain ⟨m, hl, -⟩ := laid_append_iff.1 hl
    exact noElse_of_statement h hl
  | useFile hk _ =>
    obtain ⟨m, hat, -⟩ := laid_cons_iff.1 hl
    exact noElse_of_reference (.inl rfl) hk hat
  | includeFile hk _ =>
    obtain ⟨m, hat, -⟩ := laid_cons_iff.1 hl
    exact noElse_of_reference (.inr rfl) hk hat

/-- A statement is matched at the top: no reference is. -/
theorem topStatement_of_statement (said : Says (.statement s) ks) (hl : Laid here ks next)
    {us : List Tree} (h : outcome (.rule .statement) here = some (us, next)) :
    outcome (.rule .topStatement) here = some (us, next) := by
  have before : ∀ q ∈ [Piece.term .useFile, .term .includeFile], outcome q here = none := by
    rw [List.forall_mem_cons, List.forall_mem_singleton]
    exact ⟨reference_none (.inl rfl) said hl, reference_none (.inr rfl) said hl⟩
  exact choice_of_split (r := .topStatement) [.term .useFile, .term .includeFile] rfl before h

theorem topStatement_of_useFile (hk : Terminal.useFile.Accepts k) (hat : At here k next) :
    outcome (.rule .topStatement) here = some ([.leaf .useFile k.start k.text], next) :=
  choice_of_split (r := .topStatement) [] rfl (by simp) (hat.terminal rfl hk)

theorem topStatement_of_includeFile (hk : Terminal.includeFile.Accepts k) (hat : At here k next) :
    outcome (.rule .topStatement) here = some ([.leaf .includeFile k.start k.text], next) := by
  have kind : k.kind = .includeFile := hk
  have other : outcome (.term .useFile) here = none := by
    cases hm : outcome (.term .useFile) here with
    | none => rfl
    | some o =>
      obtain ⟨l, hl, ha, -⟩ := (reference_eq_some_iff (.inl rfl)).1 hm
      have use : l.kind = .useFile := ha
      rw [hat.next (by simp [kind])] at hl
      cases hl
      rw [kind] at use
      cases use
  exact choice_of_split (r := .topStatement) [.term .useFile] rfl (by simpa using other)
    (hat.terminal rfl hk)

/-- A statement before others in a block is found with them: what follows it starts with no
`else`. -/
theorem ready_nextStatement {ss : List Statement} (hs : Says (.statements ss) ls)
    (h : Ready (.statement s) ks) (hr : Ready (.statements ss) ls) :
    Ready (.statements (s :: ss)) (ks ++ ls) := by
  intro sealed here next hl hn
  rw [List.forall_mem_cons] at sealed
  obtain ⟨m, hl, hl'⟩ := laid_append_iff.1 hl
  obtain ⟨t, ht, hread⟩ := (h sealed.1 hl fun _ => noElse_of_statements hs hl' hn).statement
  obtain ⟨us, hus, hread'⟩ := hr sealed.2 hl' hn
  exact ⟨_, .cons (inOrder_cons ht (inOrder_nil m)) hus, by simp [statements?, hread, hread']⟩

/-- A statement before others in a script is found with them: what follows it starts with no
`else`. -/
theorem ready_ordinary {ss : List Statement} (said : Says (.statement s) ks)
    (hs : Says (.script ss) ls) (h : Ready (.statement s) ks) (hr : Ready (.script ss) ls) :
    Ready (.script (s :: ss)) (ks ++ ls) := by
  intro sealed here next hl hn
  rw [List.forall_mem_cons] at sealed
  obtain ⟨m, hl, hl'⟩ := laid_append_iff.1 hl
  obtain ⟨t, ht, hread⟩ := (h sealed.1 hl fun _ => noElse_of_script hs hl' hn).statement
  obtain ⟨us, hus, hread'⟩ := hr sealed.2 hl' hn
  have top := topStatement_of_statement said hl ht
  exact ⟨_, .cons (inOrder_cons top (inOrder_nil m)) hus,
    by simp [statements?, hread, hread']⟩

/-- A reference before the rest of a script is found with it. -/
theorem ready_useFile {ss : List Statement} (hk : Terminal.useFile.Accepts k)
    (hr : Ready (.script ss) ks) :
    Ready (.script (.file k.start .use (path k.text) :: ss)) (k :: ks) := by
  intro sealed here next hl hn
  rw [List.forall_mem_cons] at sealed
  obtain ⟨m, hat, hl⟩ := laid_cons_iff.1 hl
  obtain ⟨us, hus, hread⟩ := hr sealed.2 hl hn
  have top := topStatement_of_useFile hk hat
  exact ⟨_, .cons (inOrder_cons top (inOrder_nil m)) hus,
    by simp [statements?, statement?, hread]⟩

theorem ready_includeFile {ss : List Statement} (hk : Terminal.includeFile.Accepts k)
    (hr : Ready (.script ss) ks) :
    Ready (.script (.file k.start .inclusion (path k.text) :: ss)) (k :: ks) := by
  intro sealed here next hl hn
  rw [List.forall_mem_cons] at sealed
  obtain ⟨m, hat, hl⟩ := laid_cons_iff.1 hl
  obtain ⟨us, hus, hread⟩ := hr sealed.2 hl hn
  have top := topStatement_of_includeFile hk hat
  exact ⟨_, .cons (inOrder_cons top (inOrder_nil m)) hus,
    by simp [statements?, statement?, hread]⟩

/-! ### All statements -/

/-- What the tokens say is found. -/
theorem ready_of_says {p : Passage} (h : Says p ks) : Ready p ks := by
  induction h with
  | empty hk => exact fun _ _ _ hl _ => stands_empty hk hl
  | block ho _ hc ih => exact stands_block ho ih hc
  | moduleDefinition hm hn ho hp hc _ ih =>
    exact fun sealed => stands_moduleDefinition hm hn ho hp hc (ih (by simpa using sealed))
  | functionDefinition hf hn ho hp hc ha he hz =>
    exact fun _ _ _ hl _ => stands_functionDefinition hf hn ho hp hc ha he hz hl
  | assignment hn ha he hz => exact fun _ _ _ hl _ => stands_assignment hn ha he hz hl
  | conditional hi ho he hc _ ih =>
    exact fun sealed => stands_conditional hi ho he hc (ih (by simpa using sealed))
  | alternative hi ho he hc _ hl _ iha ihb =>
    intro sealed
    obtain ⟨ha, hb, hopen⟩ := Node.sealed_alternative.1 sealed
    exact stands_alternative hi ho he hc (iha ha) hopen hl (ihb hb)
  | modified hk hm _ ih => exact fun sealed => stands_modified hk hm (ih (by simpa using sealed))
  | loop hf ho ha hc _ ih =>
    exact fun sealed => stands_loop hf ho ha hc (ih (by simpa using sealed))
  | call hn ho ha hc _ ih =>
    exact fun sealed => stands_call hn ho ha hc (ih (by simpa using sealed))
  | noStatements =>
    intro _ here next hl _
    obtain rfl := laid_nil_iff.1 hl
    exact ⟨[], .nil next, by simp [statements?]⟩
  | nextStatement _ hs ih ihs => exact ready_nextStatement hs ih ihs
  | emptyScript =>
    intro _ here next hl _
    obtain rfl := laid_nil_iff.1 hl
    exact ⟨[], .nil next, by simp [statements?]⟩
  | ordinary h hs ih ihs => exact ready_ordinary h hs ih ihs
  | useFile hk _ ih => exact ready_useFile hk ih
  | includeFile hk _ ih => exact ready_includeFile hk ih

/-- The statements that the tokens of a source say are those that its statements are read as. -/
theorem statements_of_says {source : Text} {ss : Script} (h : Says (.script ss) ks)
    (sealed : ∀ s ∈ ss, (Node.statement s).Sealed) (hl : LaidToEnd (.start source) ks) :
    ∃ p us there, outcome (.rule .statements) (.start source) =
      some ([.node .statements p us], there) ∧ statements? us = some ss ∧
        (afterSkip there).rest = [] := by
  obtain ⟨next, hl, hend⟩ := hl
  obtain ⟨us, hr, hread⟩ := ready_of_says h sealed hl hend
  have stop : outcome (.rule .topStatement) next = none := by
    cases hm : outcome (.rule .topStatement) next with
    | none => rfl
    | some o =>
      obtain ⟨t, ht, hne⟩ := firsts_of_outcome (p := .rule .topStatement) rfl (by rw [hm]; simp)
      have proper := (by decide : ∀ t ∈ (Piece.rule .topStatement).firsts, t ≠ .endOfInput) t ht
      exact absurd (terminal_none_of_end proper hend) hne
  exact ⟨_, us, next, many_of_repeats (r := .statements) rfl rfl hr stop, hread, hend⟩

/-- A source whose tokens say a script is read as that script, or is too deep for the settings. -/
theorem parseWith_of_says (settings : Settings) {source : Text} {ss : Script}
    (h : Says (.script ss) ks) (sealed : ∀ s ∈ ss, (Node.statement s).Sealed)
    (hl : LaidToEnd (.start source) ks) :
    Script.parseWith settings source = .ok ss ∨
      judge settings source = .tooDeep ∧
        Script.parseWith settings source = .error ⟨.tooDeep, 0⟩ := by
  obtain ⟨p, us, there, ho, hs, he⟩ := statements_of_says h sealed hl
  exact parseWith_of_statements settings ho hs he

end SolidScript.Grammar

namespace SolidScript.Script
open Grammar (LaidToEnd Settings)

/-- The source is read as the script with all settings that are deep enough, and otherwise found too
deep. -/
def ReadAs (source : Text) (s : Script) : Prop :=
  (∀ settings, parseWith settings source = .ok s ∨
      parseWith settings source = .error ⟨.tooDeep, 0⟩) ∧
    ∃ depth, ∀ settings : Settings, depth < settings.depth → parseWith settings source = .ok s

/-- A source is read as the script that its tokens say. -/
theorem readAs_of_says {source : Text} {ks : List Token} {s : Script} (h : Says (.script s) ks)
    (sealed : ∀ t ∈ s, (Node.statement t).Sealed) (hl : LaidToEnd (.start source) ks) :
    ReadAs source s := by
  have read (settings : Settings) := Grammar.parseWith_of_says settings h sealed hl
  refine ⟨fun settings => (read settings).imp_right And.right,
    Grammar.size (.rule .document) (.start source), fun settings hd => ?_⟩
  exact (read settings).resolve_right fun deep => Grammar.judge_ne_tooDeep hd deep.1

end SolidScript.Script
