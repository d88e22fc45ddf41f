import SolidScript.Proofs.Phrase.Reached
import SolidScript.Proofs.Phrase.Sealing
import SolidScript.Proofs.Phrase.Standing

/-!
# Phrase — what is visited inside a statement

While a statement is matched, alternatives are tried that come to nothing.  Still none of them gets
behind the statement: what is visited is visited before one of its tokens, or is the `else` that an
`if` at its end looks for (`inside_of_visits`).

A statement with tokens after it is a statement again only when the first of these is an `else`
(`isElse_of_longer`), and every piece that could be tried behind the statement would make it a longer
one.
-/

namespace SolidScript

/-! ### Tokens of derivations -/

section Closed
variable {C : Piece → Prop}

mutual

/-- The tokens that derive from a piece are those of the terminals that its rules lead to. -/
theorem accepts_of_derives (closed : ∀ r, C (.rule r) → ∀ p ∈ r.production.pieces, C p)
    (statement : C (.rule .statement)) : ∀ {p : Piece} {ks : List Token}, Derives p ks → C p →
      ∀ k ∈ ks, ∃ t, C (.term t) ∧ t.Accepts k
  | _, _, @Derives.token t _ h, hp => by
    rw [List.forall_mem_singleton]
    exact ⟨t, hp, h⟩
  | _, _, .endOfInput, _ => by simp
  | .rule r, _, .sequence h d, hp => by
    have pieces := closed r hp
    rw [h] at pieces
    exact accepts_of_derivesAll closed statement d pieces
  | .rule r, _, .choice h m d, hp => by
    have pieces := closed r hp
    rw [h] at pieces
    exact accepts_of_derives closed statement d (pieces _ m)
  | _, _, .nothing _, _ => by simp
  | .rule r, _, .something h d, hp => by
    have pieces := closed r hp
    rw [h] at pieces
    exact accepts_of_derives closed statement d (pieces _ (.head _))
  | .rule r, _, .many h d, hp => by
    have pieces := closed r hp
    rw [h] at pieces
    exact accepts_of_derivesMany closed statement d pieces
  | .rule r, _, .chain h d e, hp => by
    have pieces := closed r hp
    rw [h] at pieces
    refine List.forall_mem_append.2 ⟨accepts_of_derives closed statement d (pieces _ (.head _)),
      accepts_of_derivesMany closed statement e fun p hp => pieces p ?_⟩
    simpa [Production.pieces, or_comm] using hp
  | _, _, .notAhead _, _ => by simp
  | _, _, .family _ d, _ => accepts_of_derives closed statement d statement

theorem accepts_of_derivesAll (closed : ∀ r, C (.rule r) → ∀ p ∈ r.production.pieces, C p)
    (statement : C (.rule .statement)) : ∀ {ps : List Piece} {ks : List Token}, DerivesAll ps ks →
      (∀ p ∈ ps, C p) → ∀ k ∈ ks, ∃ t, C (.term t) ∧ t.Accepts k
  | _, _, .nil, _ => by simp
  | _, _, .cons d e, hps => by
    rw [List.forall_mem_cons] at hps
    exact List.forall_mem_append.2 ⟨accepts_of_derives closed statement d hps.1,
      accepts_of_derivesAll closed statement e hps.2⟩

theorem accepts_of_derivesMany (closed : ∀ r, C (.rule r) → ∀ p ∈ r.production.pieces, C p)
    (statement : C (.rule .statement)) : ∀ {ps : List Piece} {ks : List Token}, DerivesMany ps ks →
      (∀ p ∈ ps, C p) → ∀ k ∈ ks, ∃ t, C (.term t) ∧ t.Accepts k
  | _, _, .nil, _ => by simp
  | _, _, .cons d e, hps => List.forall_mem_append.2
    ⟨accepts_of_derivesAll closed statement d hps, accepts_of_derivesMany closed statement e hps⟩

end

end Closed

/-- The piece stands in statements: it is no reference, and nothing that holds statements of the
top. -/
def Piece.inStatement : Piece → Bool
  | term t => t ∉ [.comment, .useFile, .includeFile, .endOfInput]
  | rule r => r ∉ [.document, .statements, .topStatement]

theorem Rule.inStatement_pieces (r : Rule) (h : (Piece.rule r).inStatement = true) :
    ∀ p ∈ r.production.pieces, p.inStatement = true := by
  revert h
  cases r <;> decide

/-- No reference stands in a statement. -/
theorem not_isReference_of_derives {ks : List Token} (h : Derives (.rule .statement) ks) :
    ∀ k ∈ ks, ¬ k.IsReference := by
  intro k hk reference
  obtain ⟨t, ht, ha⟩ := accepts_of_derives (C := (·.inStatement = true))
    Rule.inStatement_pieces (by decide) h (by decide) k hk
  have kind := Terminal.kind_of_accepts ha
  rcases reference with hk | hk <;> rw [hk] at kind <;> cases t <;>
    first | (cases kind; done) | cases ht

/-! ### Something that starts with no `else` -/

/-- The piece takes a token that need not be an `else`. -/
def Piece.opens (p : Piece) : Bool :=
  p ∉ [.term .comment, .term .endOfInput, .word .elseWord, .rule .notAssign]

theorem Rule.opens_production (r : Rule) (h : (Piece.rule r).opens = true) :
    ∃ p, r.production.pieces.head? = some p ∧ p.opens = true ∧ p.rank < r.rank := by
  have table : (r.production.pieces.head?.any fun p => p.opens && decide (p.rank < r.rank)) =
      true := by
    revert h
    cases r <;> decide
  simpa [Option.any_eq_true] using table

/-- Sample tokens derive from the piece of which the first is no `else`. -/
theorem Piece.exists_open {p : Piece} (hp : p.opens = true) :
    ∃ k ks, Derives p (k :: ks) ∧ (∀ l ∈ k :: ks, l.IsSample) ∧ ¬ k.IsWord .elseWord := by
  generalize hn : p.rank = n
  induction n using Nat.strongRecOn generalizing p with
  | ind n ih =>
    subst hn
    cases p with
    | term t =>
      cases hs : t.sample with
      | none => cases t <;> first | cases hs; done | cases hp
      | some o =>
        refine ⟨⟨o.1, o.2, 0⟩, [], .token (Terminal.accepts_sample hs 0), ?_, fun he => ?_⟩
        · rw [List.forall_mem_singleton]
          exact ⟨t, hs⟩
        · have other : t.apart (.keyword .elseWord) = true := by
            revert hp
            rcases t with _ | _ | _ | _ | _ | _ | (_ | _) | (_ | _) | _ <;> decide
          exact Terminal.not_accepts_of_apart other (Terminal.accepts_sample hs 0) he
    | rule r =>
      obtain ⟨p, hfirst, opens, lower⟩ := r.opens_production hp
      obtain ⟨k, ks, hd, hk, hne⟩ := ih _ lower opens rfl
      cases hq : r.production with
      | sequence ps =>
        rw [hq] at hfirst
        obtain ⟨ps, rfl⟩ := List.head?_eq_some_iff.1 hfirst
        obtain ⟨ls, hl, hs⟩ := @Piece.hasSample_all ps fun q hm =>
          Piece.hasSample (Grammar.ne_comment_of_mem_pieces r q (by rw [hq]; exact .tail _ hm))
        exact ⟨k, ks ++ ls, .sequence hq (.cons hd hl), List.forall_mem_append.2 ⟨hk, hs⟩, hne⟩
      | choice ps =>
        rw [hq] at hfirst
        exact ⟨k, ks, .choice hq (List.mem_of_head? hfirst) hd, hk, hne⟩
      | maybe q =>
        rw [hq] at hfirst
        obtain rfl : q = p := Option.some.inj hfirst
        exact ⟨k, ks, .something hq hd, hk, hne⟩
      | many q =>
        rw [hq] at hfirst
        obtain rfl : q = p := Option.some.inj hfirst
        exact ⟨k, ks, .many hq (.once hd), hk, hne⟩
      | chain q s =>
        rw [hq] at hfirst
        obtain rfl : q = p := Option.some.inj hfirst
        exact ⟨k, ks, .single hq hd, hk, hne⟩
      | notAhead t =>
        rw [hq] at hfirst
        cases hfirst

namespace Grammar
open Piece (word)

/-! ### Tokens in the same source -/

/-- At a place stands one token, if one cannot tell a reference from its word. -/
theorem At.eq {here next m : Cursor} {k l : Token} (h : At here k next) (h' : At here l m)
    (hk : k.IsReference ↔ l.IsReference) : k = l ∧ next = m := by
  cases h with
  | plain h =>
    have plain : ¬ k.IsReference := fun hr => by
      have kind := kind_of_tokenAt h
      exact hr.elim kind.1 kind.2
    cases h' with
    | reference _ h => exact absurd (hk.2 h) plain
    | plain h' =>
      rw [h] at h'
      cases h'
      exact ⟨rfl, rfl⟩
  | reference h href =>
    cases h' with
    | reference h' _ =>
      rw [h] at h'
      cases h'
      exact ⟨rfl, rfl⟩
    | plain h' =>
      have kind := kind_of_tokenAt h'
      exact absurd (hk.1 href) fun hr => hr.elim kind.1 kind.2

/-- Of tokens that lie from the same place on, some are the front of the others. -/
theorem Laid.compare {ks ls : List Token} {here a b : Cursor} (h : Laid here ks a)
    (h' : Laid here ls b) (hk : ∀ k ∈ ks, ¬ k.IsReference) (hl : ∀ l ∈ ls, ¬ l.IsReference) :
    ks = ls ∧ a = b ∨
      (∃ l ms m, ls = ks ++ l :: ms ∧ At a l m ∧ Laid m ms b) ∨
      ∃ k ms m, ks = ls ++ k :: ms ∧ At b k m ∧ Laid m ms a := by
  induction h generalizing ls with
  | nil =>
    cases h' with
    | nil => exact .inl ⟨rfl, rfl⟩
    | cons h' hs' => exact .inr (.inl ⟨_, _, _, rfl, h', hs'⟩)
  | cons h hs ih =>
    cases h' with
    | nil => exact .inr (.inr ⟨_, _, _, rfl, h, hs⟩)
    | cons h' hs' =>
      rw [List.forall_mem_cons] at hk hl
      obtain ⟨rfl, rfl⟩ := h.eq h' (iff_of_false hk.1 hl.1)
      rcases ih hs' hk.2 hl.2 with ⟨rfl, rfl⟩ | ⟨l, ms, m, rfl, hat, laid⟩ | ⟨k, ms, m, rfl, hat, laid⟩
      · exact .inl ⟨rfl, rfl⟩
      · exact .inr (.inl ⟨l, ms, m, rfl, hat, laid⟩)
      · exact .inr (.inr ⟨k, ms, m, rfl, hat, laid⟩)

theorem Laid.offset_le {ks : List Token} {here next : Cursor} (h : Laid here ks next) :
    here.offset ≤ next.offset := by
  obtain ⟨w, hw⟩ := h.exists_rest
  have length := h.offset_add
  rw [hw, List.length_append] at length
  omega

theorem At.offset_lt {k : Token} {here next : Cursor} (h : At here k next) :
    here.offset < next.offset := by
  have length := (Laid.cons h (.nil next)).offset_add
  have := h.length_lt
  omega

/-- Where another token stands, references aside, no `else` does. -/
theorem noElse_of_at {here next : Cursor} {k : Token} (h : At here k next) (hr : ¬ k.IsReference)
    (hk : ¬ k.IsWord .elseWord) : NoElse here := by
  cases hm : outcome (word .elseWord) here with
  | none => exact hm
  | some o =>
    obtain ⟨ts, m⟩ := o
    obtain ⟨l, hl, ha, -⟩ := at_of_terminal rfl hm
    have kind : l.kind = .keyword := ha.1
    have plain : ¬ l.IsReference := by rintro (h | h) <;> rw [kind] at h <;> cases h
    obtain ⟨rfl, -⟩ := h.eq hl (iff_of_false hr plain)
    exact absurd ha hk

/-! ### Longer statements -/

/-- The tokens of a statement are taken where they lie, whatever they are called elsewhere. -/
theorem exists_taken {ks ls : List Token} {here next : Cursor} (hd : Derives (.rule .statement) ks)
    (hs : ls.map Token.shape = ks.map Token.shape) (hl : Laid here ls next) :
    ∃ s, Taken s ls := by
  have proper : ∀ k ∈ ks, Proper k := fun k hk => by
    have mem : k.shape ∈ ls.map Token.shape := hs ▸ List.mem_map_of_mem hk
    obtain ⟨l, hl', he⟩ := List.mem_map.1 mem
    obtain ⟨kind, text⟩ := Prod.mk.inj he
    obtain ⟨_, _, hat⟩ := hl.exists_at hl'
    have := hat.proper
    rwa [Proper, kind, text] at this
  obtain ⟨ts, -, t, s, -, -, said⟩ := reads_of_derives (p := .rule .statement) rfl proper hd
  obtain ⟨s', said', -⟩ := said.alike rfl (allAlike_of_shapes hs)
  obtain ⟨u, said, sealed⟩ := sealed_of_says said'
  exact ⟨u, ready_of_says said sealed⟩

/-- Only with an `else` does a statement go on as a longer one. -/
theorem isElse_of_longer {ks ls : List Token} {k : Token} (h : Derives (.rule .statement) ks)
    (h' : Derives (.rule .statement) (ks ++ k :: ls)) (alone : ∀ l ∈ ks ++ k :: ls, l.Alone) :
    k.IsWord .elseWord := by
  by_contra hk
  obtain ⟨ms, ⟨stop, laid, hend⟩, shapes⟩ := laidToEnd_written alone 0
  rw [List.map_append, List.map_cons] at shapes
  obtain ⟨ks', rest, rfl, short, hrest⟩ := List.map_eq_append_iff.1 shapes
  obtain ⟨k', ls', rfl, same, -⟩ := List.map_eq_cons_iff.1 hrest
  obtain ⟨mid, front, back⟩ := laid_append_iff.1 laid
  obtain ⟨next, hat, tail⟩ := laid_cons_iff.1 back
  obtain ⟨kind, text⟩ := Prod.mk.inj same
  have noElse : NoElse mid := by
    have plain := not_isReference_of_derives h' k (by simp)
    refine noElse_of_at hat ?_ ?_
    · rwa [Token.IsReference, kind]
    · rwa [Token.IsWord, Terminal.Accepts, kind, text]
  obtain ⟨s, taken⟩ := exists_taken h short front
  obtain ⟨s', taken'⟩ := exists_taken h' (by simpa using shapes) laid
  obtain ⟨t, ht, -⟩ := (taken front fun _ => noElse).statement
  obtain ⟨t', ht', -⟩ := (taken' laid fun _ => terminal_none_of_end (by decide) hend).statement
  rw [ht] at ht'
  cases ht'
  have forth := hat.offset_lt
  have on := tail.offset_le
  omega

/-! ### Places inside -/

/-- What is visited while a statement is matched is a piece of statements. -/
theorem inStatement_of_visits {here there : Cursor} {q : Piece}
    (h : Visits (.rule .statement) here q there) : q.inStatement = true := by
  induction h with
  | start => decide
  | enter _ e ih => exact Rule.inStatement_pieces _ ih _ (mem_pieces_of_enters e)

section Inside
variable {here stop : Cursor} {ks : List Token} (hd : Derives (.rule .statement) ks)
  (hl : Laid here ks stop) (hn : NoElse stop)
include hd hl hn

/-- Tokens from which a statement can go on lie before one of the statement that stands there, or
are all of it. -/
theorem before_of_derives {ls ms : List Token} {next : Cursor} (h : Laid here ls next)
    (hd' : Derives (.rule .statement) (ls ++ ms)) (hm : ∀ m ∈ ms, m.Alone) :
    (∃ k ks' after, ks = ls ++ k :: ks' ∧ At next k after ∧ Laid after ks' stop) ∨
      ls = ks ∧ next = stop := by
  have plain := List.forall_mem_append.1 (not_isReference_of_derives hd')
  have alone : ∀ l ∈ ls, l.Alone := fun l hm => by
    obtain ⟨_, _, hat⟩ := h.exists_at hm
    exact hat.alone
  rcases h.compare hl plain.1 (not_isReference_of_derives hd) with
    ⟨rfl, rfl⟩ | ⟨k, ks', after, rfl, hat, laid⟩ | ⟨k, ls', after, rfl, hat, -⟩
  · exact .inr ⟨rfl, rfl⟩
  · exact .inl ⟨k, ks', after, rfl, hat, laid⟩
  · -- the tokens would go on with an `else`
    rw [List.append_assoc, List.cons_append] at hd'
    have longer := isElse_of_longer hd hd' (by
      rw [← List.cons_append, ← List.append_assoc]
      exact List.forall_mem_append.2 ⟨alone, hm⟩)
    have found := hat.terminal (t := .keyword .elseWord) rfl longer
    rw [show Run.terminal _ _ = _ from hn] at found
    cases found

/-- What is tried with tokens before it from which a statement can go on is tried before a token of
the statement, if it opens something. -/
theorem before_of_opens {q : Piece} {ls ms : List Token} {next : Cursor} (h : Laid here ls next)
    (fills : Fills (.rule .statement) ls q ms) (hm : ∀ m ∈ ms, m.IsSample) (hq : q.opens = true) :
    ∃ k ks' after, ks = ls ++ k :: ks' ∧ At next k after ∧ Laid after ks' stop := by
  obtain ⟨k, js, hj, samples, hne⟩ := Piece.exists_open hq
  have whole := fills _ hj
  rw [List.append_assoc] at whole
  have alone : ∀ m ∈ k :: js ++ ms, m.Alone := fun m hmem =>
    alone_of_isSample ((List.forall_mem_append.2 ⟨samples, hm⟩) m hmem)
  refine (before_of_derives hd hl hn h whole alone).resolve_right ?_
  rintro ⟨rfl, rfl⟩
  have own : ∀ l ∈ ls, l.Alone := fun l hm => by
    obtain ⟨_, _, hat⟩ := h.exists_at hm
    exact hat.alone
  exact hne (isElse_of_longer hd whole (List.forall_mem_append.2 ⟨own, alone⟩))

/-- A place right behind the front of `==` or `!=` lies inside the statement. -/
theorem inside_of_loose {ls ms : List Token} {k : Token} {mid next : Cursor} (h : Laid here ls mid)
    (l : Loose mid k next) (hd' : Derives (.rule .statement) (ls ++ k :: ms))
    (hm : ∀ m ∈ ms, m.IsSample) : next.offset < stop.offset := by
  have all := List.forall_mem_cons.2 ⟨l.alone, fun m h => alone_of_isSample (hm m h)⟩
  obtain @⟨c, r, hc, hr⟩ := l
  rcases before_of_derives hd hl hn h hd' all with ⟨k, ks', after, rfl, hat, laid⟩ | ⟨rfl, rfl⟩
  · obtain ⟨l, last, pair, -, text⟩ := tokenAt_of_pair hr (by simpa using hc)
    have plain := not_isReference_of_derives hd k (by simp)
    obtain ⟨rfl, rfl⟩ := hat.eq (.plain pair) (iff_of_false plain fun hr => by
      have kind := kind_of_tokenAt pair
      exact hr.elim kind.1 kind.2)
    have start := hat.rest.2.2
    have on := laid.offset_le
    rw [text, List.length_cons, List.length_singleton] at start
    change (afterSkip mid).offset + 1 < stop.offset
    omega
  · have own : ∀ l ∈ ls, l.Alone := fun l hm => by
      obtain ⟨_, _, hat⟩ := h.exists_at hm
      exact hat.alone
    have longer := isElse_of_longer hd hd' (List.forall_mem_append.2 ⟨own, all⟩)
    cases longer.1

/-- Behind the mark `=` the statement goes on. -/
theorem inside_of_notAssign {there : Cursor}
    (h : Visits (.rule .statement) here (.rule .notAssign) there) :
    (∃ k ms ls after, ks = ls ++ k :: ms ∧ Laid here ls there ∧ At there k after ∧
        Laid after ms stop) ∨
      there.rest.head? = some '=' ∧ there.offset < stop.offset := by
  obtain ⟨prev, hprev, ts, hmark⟩ : ∃ prev, Visits (.rule .statement) here (.rule .assign) prev ∧
      ∃ ts, Run.terminal (.mark .assign) prev = some (ts, there) := by
    cases h with
    | @enter r _ prev _ hprev e =>
      have parent : ∀ r : Rule, Piece.rule .notAssign ∈ r.production.pieces → r = .assign := by
        intro r
        cases r <;> decide
      obtain rfl := parent r (mem_pieces_of_enters e)
      generalize hq : Rule.assign.production = production at e
      cases e with
      | @sequence _ _ before after _ us hb =>
        obtain ⟨rfl, -⟩ : before = [.mark .assign] ∧ after = [] := by
          have pieces := Production.sequence.inj hq
          rcases before with _ | ⟨b, _ | ⟨c, before⟩⟩ <;> simp_all
        rw [Run.inOrder_singleton] at hb
        exact ⟨prev, hprev, us, hb⟩
      | choice | maybe | many | chain | link => cases hq
  obtain ⟨ls, ms, fills, samples, hlaid | ⟨-, hstray, -⟩⟩ := reached_of_visits hprev
  · obtain ⟨k, ks', after, rfl, hat, laid⟩ := before_of_opens hd hl hn hlaid fills samples (by decide)
    obtain ⟨r, hr, -, rfl⟩ := terminal_mark_eq_some_iff.1 hmark
    replace hr : (afterSkip prev).rest = '=' :: r := hr
    have accepts : Token.IsMark ⟨.symbol, ['='], (afterSkip prev).offset⟩ .assign := ⟨rfl, rfl⟩
    rcases at_or_loose hr (by simp) with hsingle | hloose
    · have plain := not_isReference_of_derives hd k (by simp)
      obtain ⟨rfl, rfl⟩ := hat.eq hsingle (iff_of_false plain (by rintro (h | h) <;> cases h))
      cases ks' with
      | nil =>
        -- no statement ends in the mark
        have last := (fits_of_derives hd).last _ (by rw [List.getLast?_concat]; rfl)
        exact absurd (last (a := '=') (by simp [Token.joins])) (by decide)
      | cons k ks' =>
        obtain ⟨after, hat', laid⟩ := laid_cons_iff.1 laid
        exact .inl ⟨k, ks', ls ++ [_], after, by simp, hlaid.append (.cons hsingle (.nil _)), hat',
          laid⟩
    · have assign : Derives (.rule .assign) [⟨.symbol, ['='], (afterSkip prev).offset⟩] :=
        .sequence rfl (.cons (.token accepts) (.cons (.notAhead rfl) .nil))
      have whole := fills _ assign
      rw [List.append_assoc] at whole
      refine .inr ⟨?_, inside_of_loose hd hl hn hlaid hloose whole samples⟩
      cases hloose
      rfl
  · exact absurd hstray (by decide)

/-- What is visited while the statement is matched is visited before one of its tokens, right behind
the front of one, or is an `else` behind it. -/
theorem inside_of_visits {q : Piece} {there : Cursor} (h : Visits (.rule .statement) here q there) :
    (∃ k ms ls after, ks = ls ++ k :: ms ∧ Laid here ls there ∧ At there k after ∧
        Laid after ms stop) ∨
      (q ∈ strays ∧ there.rest.head? = some '=' ∧ there.offset < stop.offset) ∨
      q = word .elseWord ∧ there = stop := by
  have inside := inStatement_of_visits h
  by_cases hassign : q = .rule .notAssign
  · subst hassign
    rcases inside_of_notAssign hd hl hn h with found | ⟨head, lt⟩
    · exact .inl found
    · exact .inr (.inl ⟨by decide, head, lt⟩)
  obtain ⟨ls, ms, fills, samples, hreach⟩ := reached_of_visits h
  have front (hlaid : Laid here ls there) :
      (∃ k ms ls after, ks = ls ++ k :: ms ∧ Laid here ls there ∧ At there k after ∧
        Laid after ms stop) ∨ q = word .elseWord ∧ there = stop := by
    by_cases helse : q = word .elseWord
    · subst helse
      have token : Derives (word .elseWord) [⟨.keyword, Keyword.elseWord.spelling, 0⟩] :=
        .token ⟨rfl, rfl⟩
      have alone : Token.Alone ⟨.keyword, Keyword.elseWord.spelling, 0⟩ := .plain (by decide)
      have whole := fills _ token
      rw [List.append_assoc] at whole
      rcases before_of_derives hd hl hn hlaid whole (List.forall_mem_cons.2
        ⟨alone, fun m hm => alone_of_isSample (samples m hm)⟩) with
        ⟨k, ks', after, rfl, hat, laid⟩ | ⟨-, rfl⟩
      · exact .inl ⟨k, ks', ls, after, rfl, hlaid, hat, laid⟩
      · exact .inr ⟨rfl, rfl⟩
    · have opens : q.opens = true := by
        simp only [Piece.opens, List.mem_cons, List.not_mem_nil, or_false, not_or,
          decide_eq_true_eq]
        refine ⟨?_, ?_, helse, hassign⟩ <;> rintro rfl <;> cases inside
      obtain ⟨k, ks', after, rfl, hat, laid⟩ := before_of_opens hd hl hn hlaid fills samples opens
      exact .inl ⟨k, ks', ls, after, rfl, hlaid, hat, laid⟩
  rcases hreach with hlaid | ⟨hlaid | ⟨hlaid, hloose⟩, hstray, head⟩
  · exact (front hlaid).imp_right .inr
  · exact (front hlaid).imp_right .inr
  · obtain ⟨js, hj, hs⟩ := Piece.hasSample (p := q) (by rintro rfl; cases inside)
    have whole := fills _ hj
    rw [List.append_assoc, List.append_assoc, List.singleton_append] at whole
    exact .inr (.inl ⟨hstray, head, inside_of_loose hd hl hn hlaid hloose whole
      (List.forall_mem_append.2 ⟨hs, samples⟩)⟩)

end Inside

end Grammar

end SolidScript
