import SolidScript.Error
import SolidScript.Proofs.Lexical.Longest
import SolidScript.Proofs.Phrase.Inside
import SolidScript.Token.Lexer

/-!
# Phrase — where a match ends

A source that is refused is refused at a place that an attempt came to (`Ends`): where a terminal
was looked for, or before a `=` that must not come.  The tokens up to there are the front of a
document, and what a lexer finds when it comes to the last of them and goes on settles whether it
gets past the place (`Edge`).

The lexer takes the steps that the grammar takes, but for one case: a name that the grammar reads
may be the word of a reference to a file, and `<` comes next (`At.next_or_reference`).
-/

namespace SolidScript

/-! ### Tokens that stand for more -/

/-- What stands for the first token stands for the second. -/
def Token.Serves (k l : Token) : Prop := ∀ t : Terminal, t.Accepts k → t.Accepts l

theorem serves_append {ks ls ms : List Token} (h : List.Forall₂ Token.Serves (ks ++ ls) ms) :
    ∃ ks' ls', ms = ks' ++ ls' ∧ List.Forall₂ Token.Serves ks ks' ∧
      List.Forall₂ Token.Serves ls ls' :=
  ⟨ms.take ks.length, ms.drop ks.length, (List.take_append_drop _ _).symm,
    by simpa using List.forall₂_take ks.length h, by simpa using List.forall₂_drop ks.length h⟩

mutual

/-- Tokens that stand for more derive as well. -/
theorem Derives.exchange : ∀ {p : Piece} {ks ls : List Token}, Derives p ks →
    List.Forall₂ Token.Serves ks ls → Derives p ls
  | _, _, _, .token h, .cons serves .nil => .token (serves _ h)
  | _, _, _, .endOfInput, .nil => .endOfInput
  | _, _, _, .sequence h d, serves => .sequence h (d.exchange serves)
  | _, _, _, .choice h m d, serves => .choice h m (d.exchange serves)
  | _, _, _, .nothing h, .nil => .nothing h
  | _, _, _, .something h d, serves => .something h (d.exchange serves)
  | _, _, _, .many h d, serves => .many h (d.exchange serves)
  | _, _, _, .chain h d e, serves => by
    obtain ⟨ks, ls, rfl, first, rest⟩ := serves_append serves
    exact .chain h (d.exchange first) (e.exchange rest)
  | _, _, _, .notAhead h, .nil => .notAhead h
  | _, _, _, .family h d, serves => .family h (d.exchange serves)

theorem DerivesAll.exchange : ∀ {ps : List Piece} {ks ls : List Token}, DerivesAll ps ks →
    List.Forall₂ Token.Serves ks ls → DerivesAll ps ls
  | _, _, _, .nil, .nil => .nil
  | _, _, _, .cons d e, serves => by
    obtain ⟨ks, ls, rfl, first, rest⟩ := serves_append serves
    exact .cons (d.exchange first) (e.exchange rest)

theorem DerivesMany.exchange : ∀ {ps : List Piece} {ks ls : List Token}, DerivesMany ps ks →
    List.Forall₂ Token.Serves ks ls → DerivesMany ps ls
  | _, _, _, .nil, .nil => .nil
  | _, _, _, .cons d e, serves => by
    obtain ⟨ks, ls, rfl, first, rest⟩ := serves_append serves
    exact .cons (d.exchange first) (e.exchange rest)

end

/-- Any name can stand in a document where one does. -/
theorem isDocument_of_name {ks ls : List Token} {k : Token} (h : IsDocument (ks ++ k :: ls))
    (hk : k.IsName) (u : Text) : IsDocument (ks ++ ⟨.identifier, u, 0⟩ :: ls) := by
  have refl (ms : List Token) : List.Forall₂ Token.Serves ms ms :=
    List.forall₂_same.2 fun _ _ _ => id
  refine Derives.exchange h (List.rel_append (refl ks) (.cons (fun t ht => ?_) (refl ls)))
  have kind := Terminal.kind_of_accepts ht
  rw [show k.kind = .identifier from hk] at kind
  cases t <;> first | rfl | cases kind

/-- A lexer that is put at the offset finds a character there that starts no token. -/
def StuckAt (source : Text) (p : Nat) (c : Char) : Prop :=
  (Lexer.mk source (.within source p)).next.1 = .error ⟨p, c⟩

theorem StuckAt.unique {source : Text} {p : Nat} {c d : Char} (h : StuckAt source p c)
    (k : StuckAt source p d) : c = d := by
  unfold StuckAt at h k
  rw [h] at k
  cases k
  rfl

namespace Grammar

/-! ### The lexer beside the grammar -/

/-- What a lexer reads at a token: the token, or a reference that the token is the word of. -/
theorem At.next_or_reference {here mid : Cursor} {k : Token} (h : At here k mid) :
    Token.next here = .token k mid ∨
      k.IsName ∧ ∃ r next x, Token.next here = .token r next ∧ r.IsReference ∧
        r.start = k.start ∧ (afterSkip mid).rest = '<' :: x ∧ (afterSkip mid).offset < r.stop := by
  cases h with
  | reference h => exact .inl h
  | plain h =>
    by_cases none : ∀ w ∈ Lexeme.referenceWords, Lexeme.reference w (afterSkip here).rest = none
    · exact .inl (next_of_no_reference h none)
    · right
      simp only [not_forall] at none
      obtain ⟨w, hw, hr⟩ := none
      obtain ⟨⟨u, s⟩, hr⟩ := Option.ne_none_iff_exists'.1 hr
      obtain ⟨k', mid', x, hk, name, hx, hl⟩ := tokenAt_of_reference hw hr
      obtain ⟨rfl, rfl⟩ : k = k' ∧ mid = mid' := by simpa [h] using hk
      obtain ⟨r, next, reference, start, rfl⟩ := next_of_reference hw hr
      obtain ⟨whole, -, hs, stop⟩ := rest_of_tokenAt h
      refine ⟨name, r, _, x, next, reference, start.trans hs.symm, hx, ?_⟩
      obtain ⟨g, hg, ho⟩ := exists_gap mid
      have lengths := congrArg List.length (gap_eq_some_iff.1 hg).1
      have split := congrArg List.length ((Lexeme.splits_reference w).append_eq hr)
      have total := congrArg List.length whole
      rw [hx] at lengths
      simp only [List.length_append, List.length_cons] at lengths split total
      unfold Token.stop
      omega

/-- Where a symbol starts there is a next token. -/
theorem exists_next_of_symbol {here : Cursor} {c : Char} {x : Text}
    (h : (afterSkip here).rest = c :: x) (hc : c = '=' ∨ c = '<') :
    ∃ k next, Token.next here = .token k next ∧ (afterSkip here).offset < k.stop := by
  have read : (Lexeme.symbol (c :: x)).isSome :=
    Lexeme.finds_symbol.isSome x (u := [c])
      (Spelling.spells_anyOf_iff.2 (by rcases hc with rfl | rfl <;> decide))
  obtain ⟨⟨u, r⟩, hu⟩ := Option.isSome_iff_exists.1 read
  have other : Text.isDigit c = false ∧ Lexeme.startsName c = false ∧ c ≠ '"' ∧ c ≠ '.' := by
    rcases hc with rfl | rfl <;> decide
  obtain ⟨hd, hs, hq, hp⟩ := other
  have token : tokenAt here = some (⟨.symbol, u, (afterSkip here).offset⟩,
      ⟨(afterSkip here).offset + u.length, r⟩) := by
    rw [tokenAt, h, Lexeme.front_of_other hd hs hq fun h => absurd h hp, hu]
    rfl
  have next := next_of_tokenAt token (by simp)
  obtain ⟨-, hn, -, -⟩ := rest_of_next next
  exact ⟨_, _, next, Nat.lt_add_of_pos_right (List.length_pos_iff.2 hn)⟩

/-- Behind a gap there is no gap. -/
theorem afterSkip_afterSkip (here : Cursor) : afterSkip (afterSkip here) = afterSkip here := by
  obtain ⟨g, hg, -⟩ := exists_gap here
  exact afterSkip_of_gapPiece (gap_eq_some_iff.1 hg).2.2

theorem next_afterSkip (here : Cursor) : Token.next (afterSkip here) = Token.next here := by
  rw [next_eq, next_eq, afterSkip_afterSkip]

theorem Laid.afterSkip_le {here next : Cursor} {ks : List Token} (h : Laid here ks next) :
    (afterSkip here).offset ≤ (afterSkip next).offset := by
  cases h with
  | nil => exact Nat.le_refl _
  | cons h hs =>
    obtain ⟨-, -, start, stop⟩ := h.rest
    obtain ⟨g, -, ho⟩ := exists_gap next
    have := hs.offset_le
    omega

/-! ### Where a refused match ends -/

/-- The offset is one that an attempt came to: behind the gap where a piece was tried, or before it
where what must not come does. -/
inductive Ends (source : Text) : Nat → Prop where
  | tried {q : Piece} {there : Cursor} (h : Visits (.rule .document) (.start source) q there) :
      Ends source (afterSkip there).offset
  | ahead {r : Rule} {t : Terminal} {there : Cursor}
      (h : Visits (.rule .document) (.start source) (.rule r) there)
      (hr : r.production = .notAhead t) (ht : (Run.terminal t there).isSome) :
      Ends source there.offset

/-- Pieces in order fail with the first of them or behind it. -/
theorem failed_of_inOrder {att : Attempt} {p : Piece} {ps : List Piece} {here : Cursor}
    {s t : State} (h : inOrder att (p :: ps) here s = .failed t) :
    att p here s = .failed t ∨
      ∃ us there s', att p here s = .matched us there s' ∧ inOrder att ps there s' = .failed t := by
  unfold inOrder at h
  cases hp : att p here s with
  | failed s' => rw [hp] at h; exact .inl h
  | tooDeep => rw [hp] at h; cases h
  | matched us there s' =>
    rw [hp] at h
    refine .inr ⟨us, there, s', rfl, ?_⟩
    cases hps : inOrder att ps there s' <;> simp only [hps, Reply.after] at h <;> cases h
    rfl

/-- A rule of which nothing is known fails with what its production has recorded. -/
theorem failed_of_rule {remember : Bool} {depth : Nat} {r : Rule} {here : Cursor} {s t : State}
    (unknown : s.table.find? r here.offset = none)
    (h : attempt remember (depth + 1) (.rule r) here s = .failed t) :
    ∃ u, expand (attempt remember depth) r.production here s = .failed u ∧
      u.furthest = t.furthest := by
  simp only [attempt, unknown] at h
  unfold matchRule at h
  split at h
  · cases h
  · rename_i u hu
    cases h
    refine ⟨u, hu, ?_⟩
    split <;> rfl
  · cases h

/-- A terminal that is missed is missed at its place at least. -/
theorem offset_le_of_missed {remember : Bool} {depth : Nat} {t : Terminal} {here : Cursor}
    {s u : State} (h : attempt remember depth (.term t) here s = .failed u) :
    (afterSkip here).offset ≤ u.furthest.offset := by
  obtain _ | depth := depth
  · cases h
  unfold attempt matchTerminal at h
  dsimp only at h
  split at h
  · cases h
  · cases h
    simp only [State.miss, Furthest.miss, Furthest.offset_join]
    omega

/-- A document that fails has come to the first token at least: its end is missed there or later. -/
theorem offset_le_of_failed {remember : Bool} {depth : Nat} {source : Text} {s : State}
    (h : attempt remember depth (.rule .document) (.start source) (.start source) = .failed s) :
    (afterSkip (.start source)).offset ≤ s.furthest.offset := by
  obtain _ | depth := depth
  · cases h
  have agrees := attempt_agrees remember depth (.rule .statements) (.start source) (.start source)
    (Cursor.start_in source) (Table.truthful_empty source)
  obtain ⟨t, ht, he⟩ := failed_of_rule (Table.find?_empty _ _) h
  have pieces : inOrder (attempt remember depth) [.rule .statements, .term .endOfInput]
      (.start source) (.start source) = .failed t := ht
  rw [← he]
  obtain hs | ⟨us, there, t', hs, rest⟩ := failed_of_inOrder pieces
  · -- Statements match always, if only none of them.
    rw [hs] at agrees
    have matched := agrees.1
    rw [outcome_rule] at matched
    cases matched
  · rw [hs] at agrees
    obtain ⟨ks, laid, -⟩ := outcome_derives (by decide) agrees.1
    obtain missed | ⟨_, _, _, -, none⟩ := failed_of_inOrder rest
    · exact Nat.le_trans laid.afterSkip_le (offset_le_of_missed missed)
    · cases none

/-- A source is refused at a place that an attempt came to. -/
theorem ends_of_refused {settings : Settings} {source : Text} {f : Furthest}
    (h : judge settings source = .refused f) : Ends source f.offset := by
  obtain ⟨s, hs, rfl⟩ := failed_of_refused h
  have joined {a : Furthest} {p : Nat} {ts : List Terminal} (hp : Ends source p)
      (ha : a.offset = (firstRecord source).offset ∨ Ends source a.offset) :
      (a.join ⟨p, ts⟩).offset = (firstRecord source).offset ∨
        Ends source (a.join ⟨p, ts⟩).offset := by
    rw [Furthest.offset_join]
    rcases Nat.le_total a.offset p with hl | hl
    · rw [Nat.max_eq_right hl]
      exact .inr hp
    · rw [Nat.max_eq_left hl]
      exact ha
  have keeps := attempt_preserves (p := .rule .document)
    (I := fun s => s.furthest.offset = (firstRecord source).offset ∨ Ends source s.furthest.offset)
    (fun hv _ hs => joined (.tried hv) hs)
    (fun hv hr hs => joined (by split <;> rename_i ht <;>
      first | exact .ahead hv hr ht | exact .tried hv) hs)
    (fun _ hs => hs) settings.remember settings.depth (s := .start source)
    (Cursor.start_in source) (Table.truthful_empty source) (.inl rfl)
  rw [hs] at keeps
  refine keeps.elim (fun first => ?_) id
  have least := offset_le_of_failed hs
  rw [Nat.le_antisymm (first.trans_le (firstRecord_offset_le source)) least]
  exact .tried .start

/-! ### The last token before it -/

theorem stuckAt_iff {source : Text} {p : Nat} {c : Char} :
    StuckAt source p c ↔
      ∃ there, Token.next (.within source p) = .stuck there c ∧ there.offset = p := by
  unfold StuckAt Lexer.next
  dsimp only
  cases Token.next (.within source p) <;> simp [and_comm]

/-- A lexer is stuck nowhere that it reads a token from. -/
theorem not_stuckAt_of_next {source : Text} {here next : Cursor} {k : Token} (hin : here.In source)
    (h : Token.next here = .token k next) (c : Char) : ¬ StuckAt source here.offset c := by
  rw [stuckAt_iff]
  rintro ⟨there, stuck, -⟩
  rw [← hin.ext (Cursor.within_in hin.1) rfl, h] at stuck
  cases stuck

/-- A lexer that has come to the place and goes on does not get past the offset: the offset is that
of the next token, or lies before the end of a token that is no comparison with `<`. -/
inductive Edge (source : Text) (here : Cursor) : Nat → Prop where
  | behind : Edge source here (afterSkip here).offset
  | inside {k : Token} {next : Cursor} {p : Nat} (le : here.offset ≤ p)
      (token : Token.next here = .token k next) (stop : p < k.stop)
      (other : (afterSkip here).rest.head? ≠ some '<') (free : ∀ c, ¬ StuckAt source p c) :
      Edge source here p

/-- Half a token lies inside one. -/
theorem edge_of_loose {source : Text} {here next : Cursor} {k : Token} (h : Loose here k next)
    (hin : next.In source) : Edge source here next.offset := by
  obtain @⟨c, r, hc, hr⟩ := h
  have head : c = '=' ∨ c = '!' := by simpa using hc
  obtain ⟨k, last, token, accepts, text⟩ := tokenAt_of_pair hr head
  obtain ⟨-, -, start, -⟩ := rest_of_tokenAt token
  obtain ⟨g, -, ho⟩ := exists_gap here
  have plain : k.kind = .symbol := accepts.1
  have stays : afterSkip ⟨(afterSkip here).offset + 1, '=' :: r⟩ =
      ⟨(afterSkip here).offset + 1, '=' :: r⟩ :=
    afterSkip_of_gapPiece (gapPiece_of_head (by decide) (by decide))
  obtain ⟨l, m, rest, -⟩ := exists_next_of_symbol (by rw [stays]) (.inl rfl)
  refine .inside ?_ (next_of_tokenAt token (by simp [plain])) ?_ ?_ (not_stuckAt_of_next hin rest)
  · change here.offset ≤ (afterSkip here).offset + 1
    omega
  · change (afterSkip here).offset + 1 < k.start + k.text.length
    rw [text, start]
    exact Nat.lt_succ_self _
  · rw [hr]
    rcases head with rfl | rfl <;> simp

/-- The tokens before an offset that an attempt came to are the front of a document, and behind
them a lexer does not get past it. -/
theorem edge_of_ends {source : Text} {p : Nat} (h : Ends source p) :
    ∃ ks ms here, Laid (.start source) ks here ∧ IsDocument (ks ++ ms) ∧ (∀ k ∈ ms, k.Alone) ∧
      Edge source here p := by
  have finish {q : Piece} {there : Cursor} (hv : Visits (.rule .document) (.start source) q there)
      (laid : there.In source → Edge source there p)
      (loose : there.rest.head? = some '=' → p = there.offset) :
      ∃ ks ms here, Laid (.start source) ks here ∧ IsDocument (ks ++ ms) ∧ (∀ k ∈ ms, k.Alone) ∧
        Edge source here p := by
    have hq : q ≠ .term .comment := by
      rintro rfl
      cases hv with
      | @enter r _ _ _ _ he => exact ne_comment_of_mem_pieces r _ (mem_pieces_of_enters he) rfl
    obtain ⟨ks, ls, fills, hl, hk⟩ := reached_of_visits hv
    obtain ⟨ms, hd, hm⟩ := Piece.hasSample hq
    have document := fills ms hd
    have alone : ∀ k ∈ ms ++ ls, k.Alone := fun k hk =>
      alone_of_isSample ((List.forall_mem_append.2 ⟨hm, hl⟩) k hk)
    rw [List.append_assoc] at document
    rcases hk with hk | ⟨hk, -, heq⟩
    · have inside := (Reached.laid hk).inside (Cursor.start_in source)
      exact ⟨ks, ms ++ ls, there, hk, document, alone, laid inside⟩
    · have inside := hk.inside (Cursor.start_in source)
      obtain rfl := loose heq
      cases hk with
      | laid hk => exact ⟨ks, ms ++ ls, there, hk, document, alone, laid inside⟩
      | @loose pre k mid _ hk l =>
        rw [List.append_assoc] at document
        exact ⟨pre, k :: (ms ++ ls), mid, hk, document, List.forall_mem_cons.2 ⟨l.alone, alone⟩,
          edge_of_loose l inside⟩
  cases h with
  | @tried _ there hv =>
    refine finish hv (fun _ => .behind) fun heq => ?_
    obtain ⟨r, hr⟩ := List.head?_eq_some_iff.1 heq
    rw [afterSkip_of_gapPiece (hr ▸ gapPiece_of_head (by decide) (by decide))]
  | @ahead r t there hv hr ht =>
    obtain rfl : t = .mark .assign := by cases r <;> cases hr; rfl
    obtain ⟨⟨ts, next⟩, ht⟩ := Option.isSome_iff_exists.1 ht
    obtain ⟨x, hx, -⟩ := terminal_mark_eq_some_iff.1 ht
    replace hx : (afterSkip there).rest = '=' :: x := hx
    obtain ⟨k, last, token, stop⟩ := exists_next_of_symbol hx (.inl rfl)
    obtain ⟨g, -, ho⟩ := exists_gap there
    exact finish hv (fun hin => .inside (Nat.le_refl _) token (by omega) (by simp [hx])
      (not_stuckAt_of_next hin token)) fun _ => rfl

end Grammar

end SolidScript
