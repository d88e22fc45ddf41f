import SolidScript.Proofs.Matching.Visits
import SolidScript.Proofs.Phrase.Sample

/-!
# Phrase — how far an attempt has got

When an attempt tries a piece at a place, the tokens up to there are the front of something that
derives from what is attempted, whatever the piece comes to: they can be followed by anything that
derives from the piece, and then by something that finishes what was begun (`reached_of_visits`).

The last of these tokens may be half of one: the terminals for `=` and for modifiers also match the
front of `==` and of `!=` (`Loose`).  What is tried behind it fails there at once (`strays`).
-/

namespace SolidScript.Grammar
open Piece (mark word)

/-! ### Tokens of outcomes -/

theorem derives_of_outcome {p : Piece} (hp : isOrdinary p = true) {here next : Cursor}
    {ts : List Tree} (h : outcome p here = some (ts, next)) :
    ∃ ks, Laid here ks next ∧ Derives p ks := by
  cases p with
  | term t =>
    obtain ⟨k, hk, ha, -⟩ := at_of_terminal hp h
    exact ⟨[k], .cons hk (.nil _), .token ha⟩
  | rule r =>
    obtain ⟨ks, hl, -, hd⟩ := outcome_derives (by simpa [isOrdinary] using hp) h
    exact ⟨ks, hl, hd⟩

theorem derives_of_inOrder :
    ∀ {ps : List Piece} {here next : Cursor} {ts : List Tree}, (∀ p ∈ ps, isOrdinary p = true) →
      outcome.inOrder ps here = some (ts, next) → ∃ ks, Laid here ks next ∧ DerivesAll ps ks
  | [], _, _, _, _, h => by
      cases h
      exact ⟨[], .nil _, .nil⟩
  | p :: ps, here, next, ts, hps, h => by
      rw [List.forall_mem_cons] at hps
      obtain ⟨us, there, vs, hp, h, -⟩ := Run.inOrder_cons_eq_some_iff.1 h
      obtain ⟨ks, hl, hd⟩ := derives_of_outcome hps.1 hp
      obtain ⟨ls, hl', hd'⟩ := derives_of_inOrder hps.2 h
      exact ⟨ks ++ ls, hl.append hl', .cons hd hd'⟩

theorem derives_of_repeats {ps : List Piece} (hps : ∀ p ∈ ps, isOrdinary p = true)
    {here next : Cursor} {ts : List Tree} (h : Repeats ps here ts next) :
    ∃ ks, Laid here ks next ∧ ∀ ls, DerivesMany ps ls → DerivesMany ps (ks ++ ls) := by
  induction h with
  | nil => exact ⟨[], .nil _, fun _ => id⟩
  | cons h _ ih =>
    obtain ⟨ks, hl, hd⟩ := derives_of_inOrder hps h
    obtain ⟨ls, hl', hd'⟩ := ih
    exact ⟨ks ++ ls, hl.append hl', fun ms hm => by
      rw [List.append_assoc]
      exact .cons hd (hd' ms hm)⟩

theorem derivesAll_append {ps qs : List Piece} {ks ls : List Token} (h : DerivesAll ps ks)
    (k : DerivesAll qs ls) : DerivesAll (ps ++ qs) (ks ++ ls) := by
  induction ps generalizing ks with
  | nil => cases h; exact k
  | cons p ps ih =>
    cases h with
    | cons d e =>
      rw [List.cons_append, List.append_assoc]
      exact .cons d (ih e)

/-! ### Half a token -/

/-- The token is read off the front of `==` or `!=`. -/
inductive Loose (here : Cursor) : Token → Cursor → Prop where
  | intro {c : Char} {r : Text} (hc : c ∈ ['=', '!'])
      (hr : (afterSkip here).rest = c :: '=' :: r) :
      Loose here ⟨.symbol, [c], (afterSkip here).offset⟩ ⟨(afterSkip here).offset + 1, '=' :: r⟩

/-- Half a token can stand alone. -/
theorem Loose.alone {here next : Cursor} {k : Token} (h : Loose here k next) : k.Alone := by
  obtain @⟨c, r, hc, -⟩ := h
  have either : c = '=' ∨ c = '!' := by simpa using hc
  have begins : Lexeme.Begins .symbol [c] [] := by
    rcases either with rfl | rfl <;> exact .plain (by decide)
  exact begins

/-- A symbol of one character is a token, or half of one. -/
theorem at_or_loose {here : Cursor} {c : Char} {r : Text} (hr : (afterSkip here).rest = c :: r)
    (hc : c ∈ ['=', '*', '!', '#', '%']) :
    At here ⟨.symbol, [c], (afterSkip here).offset⟩ ⟨(afterSkip here).offset + 1, r⟩ ∨
      Loose here ⟨.symbol, [c], (afterSkip here).offset⟩ ⟨(afterSkip here).offset + 1, r⟩ := by
  by_cases pair : c ∈ ['=', '!'] ∧ r.head? = some '='
  · obtain ⟨s, rfl⟩ := List.head?_eq_some_iff.1 pair.2
    exact .inr (.intro pair.1 hr)
  · exact .inl (at_of_single hr hc fun h hh => pair ⟨h, hh⟩)

/-- What is tried behind half a token. -/
def strays : List Piece :=
  [.rule .notAssign, .rule .closedStatement, .rule .openStatement, mark .semicolon, .rule .block,
    .rule .moduleDefinition, .rule .functionDefinition, .rule .assignment, .rule .closedIfElse,
    .rule .closedModified, .rule .closedFor, .rule .closedCall, .rule .openIfElse, .rule .openIf,
    .rule .openModified, .rule .openFor, .rule .openCall, mark .openBrace, word .moduleWord,
    word .functionWord, .term .identifier, word .ifWord, .term .modifier, word .forWord,
    .rule .callName, word .echoWord, word .letWord, word .assertWord]

/-- Of the pieces of the production only the first ones are tried where it starts with a stray. -/
def staysStray : Production → Bool
  | .choice ps         => ps.all (· ∈ strays)
  | .sequence (p :: _) => decide (p ∈ strays) && !p.nullable && p.firsts.all (.term · ∈ strays)
  | .notAhead _        => true
  | _                  => false

theorem staysStray_production {r : Rule} (h : .rule r ∈ strays) :
    staysStray r.production = true := by
  revert h
  cases r <;> decide

/-- No terminal that is tried behind half a token matches there. -/
theorem terminal_none_of_stray {t : Terminal} (ht : .term t ∈ strays) {here : Cursor}
    (h : here.rest.head? = some '=') : Run.terminal t here = none := by
  obtain ⟨r, hr⟩ := List.head?_eq_some_iff.1 h
  have stays : afterSkip here = here :=
    afterSkip_of_gapPiece (hr ▸ gapPiece_of_head (by decide) (by decide))
  have noName : Lexeme.name ('=' :: r) = none :=
    Lexeme.name_of_not_startsName (by simp only [Reader.stops]; decide)
  have unread : t.reader ('=' :: r) = none := by
    simp only [strays, List.mem_cons, List.not_mem_nil, or_false, reduceCtorEq, Piece.term.injEq,
      false_or] at ht
    rcases ht with rfl | rfl | rfl | rfl | rfl | rfl | rfl | rfl | rfl | rfl | rfl
    · rfl
    · rfl
    · exact Lexeme.keywordReader_of_no_name noName
    · exact Lexeme.keywordReader_of_no_name noName
    · exact Lexeme.identifierReader_of_no_name noName
    · exact Lexeme.keywordReader_of_no_name noName
    · rfl
    · exact Lexeme.keywordReader_of_no_name noName
    · exact Lexeme.keywordReader_of_no_name noName
    · exact Lexeme.keywordReader_of_no_name noName
    · exact Lexeme.keywordReader_of_no_name noName
  rw [Run.terminal, stays, Cursor.read, hr, unread]
  rfl

theorem outcome_none_of_strays {p : Piece} (hp : p.nullable = false)
    (hf : p.firsts.all (.term · ∈ strays) = true) {here : Cursor} (h : here.rest.head? = some '=') :
    outcome p here = none := by
  cases hm : outcome p here with
  | none => rfl
  | some o =>
    obtain ⟨t, ht, hne⟩ := firsts_of_outcome hp (by rw [hm]; simp)
    exact absurd (terminal_none_of_stray (by simpa using List.all_eq_true.1 hf t ht) h) hne

/-! ### One step -/

/-- No comment is a piece of a production. -/
theorem ne_comment_of_mem_pieces (r : Rule) : ∀ p ∈ r.production.pieces, p ≠ .term .comment := by
  cases r <;> decide

/-- Pieces that are tried in a rule are pieces of its production. -/
theorem mem_pieces_of_enters {q : Production} {here there : Cursor} {p : Piece}
    (h : Enters q here p there) : p ∈ q.pieces := by
  cases h with
  | sequence | choice => simp [Production.pieces]
  | maybe | many | chain => simp [Production.pieces]
  | @link _ _ _ _ _ _ _ before after _ _ _ _ _ l _ =>
    have mem : p ∈ before ++ p :: after := List.mem_append_right _ List.mem_cons_self
    rw [← l] at mem
    simpa [Production.pieces, or_comm] using mem

/-- Something finishes a sequence. -/
theorem exists_rest {r : Rule} {before after : List Piece} {q : Piece}
    (hr : r.production = .sequence (before ++ q :: after)) :
    ∃ ls, DerivesAll after ls ∧ ∀ k ∈ ls, k.IsSample := by
  refine Piece.hasSample_all fun p hp => Piece.hasSample ?_
  refine ne_comment_of_mem_pieces r p ?_
  rw [hr]
  exact List.mem_append_right _ (.tail _ hp)

/-- What follows the piece in the rule can be finished, whatever derives from the piece. -/
def Fills (p : Piece) (ks : List Token) (q : Piece) (ls : List Token) : Prop :=
  ∀ ms, Derives q ms → Derives p (ks ++ ms ++ ls)

theorem Fills.trans {p q q' : Piece} {ks ks' ls ls' : List Token} (h : Fills p ks q ls)
    (k : Fills q ks' q' ls') : Fills p (ks ++ ks') q' (ls' ++ ls) := fun ms hm => by
  simpa using h _ (k ms hm)

theorem fills_sequence {r : Rule} {before after : List Piece} {q : Piece} {ks ls : List Token}
    (hr : r.production = .sequence (before ++ q :: after)) (hb : DerivesAll before ks)
    (ha : DerivesAll after ls) : Fills (.rule r) ks q ls := fun ms hm => by
  rw [List.append_assoc]
  exact .sequence hr (derivesAll_append hb (.cons hm ha))

/-- Behind half a token nothing but the first pieces of productions is tried. -/
theorem stays_of_enters {r : Rule} (hr : .rule r ∈ strays) {there next : Cursor} {q : Piece}
    (he : there.rest.head? = some '=') (h : Enters r.production there q next) :
    next = there ∧ q ∈ strays ∧ ∃ ls, Fills (.rule r) [] q ls ∧ ∀ k ∈ ls, k.IsSample := by
  have stays := staysStray_production hr
  generalize hq : r.production = production at h stays
  cases h with
  | @sequence _ _ before after _ us hb =>
    obtain ⟨ls, hl, hs⟩ := exists_rest hq
    cases before with
    | nil =>
      cases hb
      simp only [List.nil_append, staysStray, Bool.and_eq_true, decide_eq_true_eq] at stays
      exact ⟨rfl, stays.1.1, ls, fills_sequence hq .nil hl, hs⟩
    | cons p before =>
      simp only [List.cons_append, staysStray, Bool.and_eq_true, Bool.not_eq_true'] at stays
      rw [Run.inOrder, outcome_none_of_strays stays.1.2 stays.2 he] at hb
      cases hb
  | choice hb =>
    refine ⟨rfl, ?_, [], fun ms hm => ?_, by simp⟩
    · exact of_decide_eq_true (List.all_eq_true.1 stays q (by simp))
    · simpa using Derives.choice hq (by simp) hm
  | maybe => cases stays
  | many => cases stays
  | chain => cases stays
  | link => cases stays

/-- The pieces of a sequence before one that is tried take tokens, or half of one. -/
theorem before_of_inOrder {r : Rule} {before after : List Piece} {q : Piece}
    (hr : r.production = .sequence (before ++ q :: after)) {there next : Cursor} {us : List Tree}
    (h : outcome.inOrder before there = some (us, next)) :
    ∃ ks, DerivesAll before ks ∧
      (Laid there ks next ∨ ∃ k, ks = [k] ∧ Loose there k next ∧ q ∈ strays) := by
  have pair {a b : Piece} (hab : before ++ q :: after = [a, b]) :
      before = [] ∧ q = a ∨ before = [a] ∧ q = b := by
    rcases before with _ | ⟨c, _ | ⟨d, before⟩⟩ <;> simp_all
  have single {t : Terminal} {c : Char} {r : Text} (hr : (afterSkip there).rest = c :: r)
      (hc : c ∈ ['=', '*', '!', '#', '%'])
      (ha : t.Accepts ⟨.symbol, [c], (afterSkip there).offset⟩) (hs : q ∈ strays)
      (hn : next = ⟨(afterSkip there).offset + 1, r⟩) :
      ∃ ks, DerivesAll [.term t] ks ∧
        (Laid there ks next ∨ ∃ k, ks = [k] ∧ Loose there k next ∧ q ∈ strays) := by
    subst hn
    refine ⟨_, .cons (.token ha) .nil, ?_⟩
    rcases at_or_loose hr hc with hk | hk
    · exact .inl (.cons hk (.nil _))
    · exact .inr ⟨_, rfl, hk, hs⟩
  by_cases hs : r ∈ special
  · simp only [special, List.mem_cons, List.not_mem_nil, or_false] at hs
    have none_before (hb : before = []) : ∃ ks, DerivesAll before ks ∧
        (Laid there ks next ∨ ∃ k, ks = [k] ∧ Loose there k next ∧ q ∈ strays) := by
      subst hb
      cases h
      exact ⟨[], .nil, .inl (.nil _)⟩
    have modifier (hm : before = [.term .modifier]) (hq : q ∈ strays) : ∃ ks,
        DerivesAll before ks ∧
          (Laid there ks next ∨ ∃ k, ks = [k] ∧ Loose there k next ∧ q ∈ strays) := by
      subst hm
      rw [Run.inOrder_singleton] at h
      obtain ⟨c, r, hc, hr, -, rfl⟩ := terminal_modifier_eq_some_iff.1 h
      exact single hr (List.mem_cons_of_mem _ hc) ⟨rfl, by simpa using hc⟩ hq rfl
    rcases hs with rfl | rfl | rfl | rfl
    · rcases pair (Production.sequence.inj hr).symm with ⟨hb, -⟩ | ⟨rfl, -⟩
      · exact none_before hb
      · obtain ⟨ks, hl, hd⟩ := derives_of_inOrder (by simp [isOrdinary]) h
        exact ⟨ks, hd, .inl hl⟩
    · rcases pair (Production.sequence.inj hr).symm with ⟨hb, -⟩ | ⟨rfl, rfl⟩
      · exact none_before hb
      · rw [Run.inOrder_singleton] at h
        obtain ⟨x, hx, -, rfl⟩ := terminal_mark_eq_some_iff.1 h
        exact single hx (by decide) ⟨rfl, rfl⟩ (by decide) rfl
    · rcases pair (Production.sequence.inj hr).symm with ⟨hb, -⟩ | ⟨hm, rfl⟩
      · exact none_before hb
      · exact modifier hm (by decide)
    · rcases pair (Production.sequence.inj hr).symm with ⟨hb, -⟩ | ⟨hm, rfl⟩
      · exact none_before hb
      · exact modifier hm (by decide)
  · have ordinary := isOrdinary_of_mem_pieces r hs
    rw [hr] at ordinary
    obtain ⟨ks, hl, hd⟩ := derives_of_inOrder
      (fun p hp => ordinary p (List.mem_append_left _ hp)) h
    exact ⟨ks, hd, .inl hl⟩

/-- Rules that do not take what they look at, or not all of it, are sequences. -/
theorem not_special_of_ne_sequence {r : Rule} (h : ∀ ps, r.production ≠ .sequence ps) :
    r ∉ special := fun hs => by
  simp only [special, List.mem_cons, List.not_mem_nil, or_false] at hs
  rcases hs with rfl | rfl | rfl | rfl <;> exact h _ rfl

/-- The pieces before one that is tried take tokens, or half of one, with which the rule can be
filled. -/
theorem fills_of_enters {r : Rule} {there next : Cursor} {q : Piece}
    (h : Enters r.production there q next) :
    ∃ ks ls, Fills (.rule r) ks q ls ∧ (∀ k ∈ ls, k.IsSample) ∧
      (Laid there ks next ∨ ∃ k, ks = [k] ∧ Loose there k next ∧ q ∈ strays) := by
  generalize hq : r.production = production at h
  have ordinary (hs : r ∉ special) : ∀ p ∈ production.pieces, isOrdinary p = true :=
    hq ▸ isOrdinary_of_mem_pieces r hs
  cases h with
  | sequence hb =>
    obtain ⟨ks, hd, hk⟩ := before_of_inOrder hq hb
    obtain ⟨ls, hl, hs⟩ := exists_rest hq
    exact ⟨ks, ls, fills_sequence hq hd hl, hs, hk⟩
  | choice =>
    exact ⟨[], [], fun ms hm => by simpa using Derives.choice hq (by simp) hm, by simp,
      .inl (.nil _)⟩
  | maybe =>
    exact ⟨[], [], fun ms hm => by simpa using Derives.something hq hm, by simp, .inl (.nil _)⟩
  | many hr =>
    have hs := not_special_of_ne_sequence fun ps he => by cases hq.symm.trans he
    obtain ⟨ks, hl, hd⟩ := derives_of_repeats (ordinary hs) hr
    exact ⟨ks, [], fun ms hm => by simpa using Derives.many hq (hd _ (.once hm)), by simp, .inl hl⟩
  | chain =>
    exact ⟨[], [], fun ms hm => by simpa using Derives.single hq hm, by simp, .inl (.nil _)⟩
  | @link _ first there _ p _ sep before after us vs ws hp hr hl hb =>
    have hs := not_special_of_ne_sequence fun ps he => by cases hq.symm.trans he
    have pieces : ∀ p' ∈ sep.toList ++ [p], p' ∈ (Production.chain p sep).pieces := by
      simp [Production.pieces, or_comm]
    have links : ∀ p' ∈ sep.toList ++ [p], isOrdinary p' = true := fun p' hp' =>
      ordinary hs p' (pieces p' hp')
    obtain ⟨ks, hlk, hdk⟩ := derives_of_outcome (ordinary hs p (by simp [Production.pieces])) hp
    obtain ⟨ls, hll, hdl⟩ := derives_of_repeats links hr
    rw [hl] at links hdl
    obtain ⟨ms, hlm, hdm⟩ := derives_of_inOrder
      (fun p' hp' => links p' (List.mem_append_left _ hp')) hb
    obtain ⟨ns, hdn, hsn⟩ := @Piece.hasSample_all after fun p' hp' => Piece.hasSample
      (ne_comment_of_mem_pieces r p' (by
        rw [hq]
        exact pieces p' (hl ▸ List.mem_append_right _ (.tail _ hp'))))
    refine ⟨ks ++ (ls ++ ms), ns, fun js hj => ?_, hsn, .inl (hlk.append (hll.append hlm))⟩
    have round := DerivesMany.cons (derivesAll_append hdm (.cons hj hdn)) .nil
    have whole := Derives.chain hq hdk (hl ▸ hdl _ round)
    simpa using whole

/-! ### All steps -/

/-- The tokens lie between the places, the last perhaps loosely. -/
inductive Reached (here : Cursor) : List Token → Cursor → Prop where
  | laid {ks : List Token} {next : Cursor} (h : Laid here ks next) : Reached here ks next
  | loose {ks : List Token} {k : Token} {mid next : Cursor} (h : Laid here ks mid)
      (l : Loose mid k next) : Reached here (ks ++ [k]) next

/-- What is tried at a place fills what is attempted, after the tokens up to there, which lie there
but for the last one behind which only strays are tried. -/
theorem reached_of_visits {p q : Piece} {here there : Cursor} (h : Visits p here q there) :
    ∃ ks ls, Fills p ks q ls ∧ (∀ k ∈ ls, k.IsSample) ∧
      (Laid here ks there ∨ Reached here ks there ∧ q ∈ strays ∧ there.rest.head? = some '=') := by
  induction h with
  | start => exact ⟨[], [], fun ms hm => by simpa using hm, by simp, .inl (.nil _)⟩
  | enter _ he ih =>
    obtain ⟨ks, ls, fills, samples, hk | ⟨hk, hq, heq⟩⟩ := ih
    · obtain ⟨ks', ls', fills', samples', hk' | ⟨k, rfl, hk', hs⟩⟩ := fills_of_enters he
      · exact ⟨_, _, fills.trans fills', List.forall_mem_append.2 ⟨samples', samples⟩,
          .inl (hk.append hk')⟩
      · refine ⟨_, _, fills.trans fills', List.forall_mem_append.2 ⟨samples', samples⟩,
          .inr ⟨.loose hk hk', hs, ?_⟩⟩
        cases hk'
        rfl
    · obtain ⟨rfl, hs, ls', fills', samples'⟩ := stays_of_enters hq heq he
      refine ⟨_, _, fills.trans fills', List.forall_mem_append.2 ⟨samples', samples⟩, .inr ?_⟩
      rw [List.append_nil]
      exact ⟨hk, hs, heq⟩

theorem At.inside {source : Text} {here next : Cursor} {k : Token} (h : At here k next)
    (hin : here.In source) : next.In source := by
  obtain ⟨rest, -, start, stop⟩ := h.rest
  obtain ⟨ho, hr⟩ := afterSkip_in hin
  rw [rest] at hr
  have length := congrArg List.length hr
  rw [List.length_append, List.length_drop] at length
  refine ⟨by omega, ?_⟩
  rw [stop, start, ← List.drop_drop, ← hr, List.drop_left]

/-- What is reached lies in the source. -/
theorem Reached.inside {source : Text} {here next : Cursor} {ks : List Token}
    (h : Reached here ks next) (hin : here.In source) : next.In source := by
  have laid {ks : List Token} {here next : Cursor} (h : Laid here ks next) (hin : here.In source) :
      next.In source := by
    induction h with
    | nil => exact hin
    | cons h _ ih => exact ih (h.inside hin)
  cases h with
  | laid h => exact laid h hin
  | loose h l =>
    obtain @⟨c, r, hc, hr⟩ := l
    obtain ⟨ho, hd⟩ := afterSkip_in (laid h hin)
    rw [hr] at hd
    have length := congrArg List.length hd
    rw [List.length_drop, List.length_cons] at length
    refine ⟨show (afterSkip _).offset + 1 ≤ _ by omega, ?_⟩
    change '=' :: r = source.drop ((afterSkip _).offset + 1)
    rw [← List.drop_drop, ← hd]
    rfl

/-- Half a token is a whole one where a new line comes in place of its other half. -/
theorem Loose.at_line {here : Cursor} {k : Token} {n : Nat} {r : Text}
    (l : Loose here k ⟨n, '=' :: r⟩) (x : Text) :
    ∃ u, here.rest = u ++ '=' :: r ∧ u.head? ≠ some '*' ∧
      At ⟨here.offset, u ++ '\n' :: x⟩ k ⟨n, '\n' :: x⟩ := by
  obtain @⟨c, _, hc, hr⟩ := l
  obtain ⟨g, hg, ho⟩ := exists_gap here
  obtain ⟨whole, isGap, -⟩ := gap_eq_some_iff.1 hg
  rw [hr] at whole isGap
  have plain : Text.isBlank c = false ∧ c ≠ '/' ∧ c ≠ '*' ∧ c ≠ '\n' := by
    simp only [List.mem_cons, List.not_mem_nil, or_false] at hc
    rcases hc with rfl | rfl <;> decide
  have skip : afterSkip ⟨here.offset, (g ++ [c]) ++ '\n' :: x⟩ =
      ⟨(afterSkip here).offset, c :: '\n' :: x⟩ := by
    rw [ho]
    refine afterSkip_of_gap (gap_eq_some_iff.2 ⟨by simp, isGap.congr ?_, ?_⟩)
    · simpa using plain.2.2.2
    · exact gapPiece_of_head plain.1 plain.2.1
  refine ⟨g ++ [c], by simpa using whole, fun star => ?_, ?_⟩
  · cases g with
    | nil => exact plain.2.2.1 (Option.some.inj star)
    | cons d g => exact absurd (isGap.head star) (by decide)
  · have single := @at_of_single ⟨here.offset, (g ++ [c]) ++ '\n' :: x⟩ _ _ (by rw [skip])
      (by simp only [List.mem_cons, List.not_mem_nil, or_false] at hc ⊢
          rcases hc with rfl | rfl <;> simp) (by simp)
    rwa [skip] at single

/-- The source up to what was reached, and another source on a new line there. -/
theorem Reached.splice {b v s x : Text} {n : Nat} {ks ls : List Token}
    (h : Reached (.start (b ++ s)) ks ⟨n, v ++ s⟩) (apart : ks.IsChain Token.Apart)
    (hv : IsGap v s) (hx : LaidToEnd (.start x) ls) :
    LaidToEnd (.start (b ++ '\n' :: x)) (ks ++ ls.map (Token.moved (b.length + 1))) := by
  generalize hn : Cursor.mk n (v ++ s) = next at h
  cases h with
  | laid h =>
    subst hn
    simpa [Cursor.start] using laidToEnd_splice h apart hv hx
  | @loose ms k mid _ h l =>
    -- No gap starts with the other half, so the source is cut right behind the first.
    obtain ⟨r, hr⟩ : ∃ r, next.rest = '=' :: r := by
      cases l
      exact ⟨_, rfl⟩
    subst hn
    obtain rfl : v = [] := by
      cases v with
      | nil => rfl
      | cons d v =>
        obtain rfl := (List.cons.inj hr).1
        exact absurd (hv.head rfl) (by decide)
    obtain rfl : s = '=' :: r := hr
    obtain ⟨u, hu, star, half⟩ := l.at_line x
    obtain ⟨m, t⟩ := mid
    obtain rfl : t = u ++ '=' :: r := hu
    have first := Laid.cut h (List.isChain_append.1 apart).1 (Lexeme.parts_newline x)
      fun hs => absurd hs star
    have front := first.append (.cons half (.nil _))
    have length := front.offset_add
    simp only [List.length_append, List.length_cons] at length
    obtain ⟨last, hl, hend⟩ := laidToEnd_splice (o := n) (b := []) (v := []) (s := [])
      (.nil _) .nil (.nil _) hx
    have stop : n + 0 + 1 = b.length + 1 := by omega
    rw [List.length_nil, stop] at hl
    exact ⟨last, front.append hl, hend⟩

end SolidScript.Grammar
