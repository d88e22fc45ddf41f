import SolidScript.Proofs.Phrase.Edge

/-!
# Phrase — runs of a lexer

A lexer that is asked for one token after the other comes to the end of its source or to a character
that is in the way.  Every lexer has one such run (`exists_reads`, `Reads.unique`), and it gives
what `Token.onward` gives (`reads_iff_onward`).

The tokens of a run do not depend on what comes before them, nor on what comes after them: the run
goes on the same way from the place of any of its tokens (`reads_append_iff`), the same tokens are
read behind more characters (`Token.Run.of_moved`), and from the source cut off after the last of
them (`Token.Run.cut`).  That a cut changes nothing needs no assumption: a shorter text has fewer
fronts, and no comment comes about in it.

* `Lexer.Reads`: all tokens of a run, and how it ends.
* `Token.Run`: tokens that a lexer takes on its way from one place to another.
-/

namespace SolidScript
open Grammar
open Token (longest longestAmong)

/-! ### Places -/

/-- What lies between two places is what the source has between their offsets. -/
theorem Cursor.In.extract {source u : Text} {here there : Cursor} (inside : here.In source)
    (split : here.rest = u ++ there.rest) (offset : there.offset = here.offset + u.length) :
    source.extract here.offset there.offset = u := by
  rw [List.extract_eq_take_drop, offset, Nat.add_sub_cancel_left, ← inside.2, split, List.take_left]

/-! ### Steps -/

namespace Lexer

variable {l m n : Lexer}

/-- A lexer reads a token where its cursor is at one. -/
theorem next_token_iff {k : Token} :
    l.next = (.ok (some k), m) ↔
      ∃ there, Token.next l.here = .token k there ∧ m = ⟨l.source, there⟩ := by
  unfold next
  cases Token.next l.here <;> simp [eq_comm]

/-- A lexer is done where its cursor is. -/
theorem next_done_iff :
    l.next = (.ok none, m) ↔
      ∃ there, Token.next l.here = .done there ∧ m = ⟨l.source, there⟩ := by
  unfold next
  cases Token.next l.here <;> simp [eq_comm]

/-- A lexer is stuck where its cursor is. -/
theorem next_stuck_iff {bad : Unexpected} :
    l.next = (.error bad, m) ↔
      ∃ there c, Token.next l.here = .stuck there c ∧ bad = ⟨there.offset, c⟩ ∧
        m = ⟨l.source, there⟩ := by
  unfold next
  cases Token.next l.here <;> simp [eq_comm, and_assoc]

/-! ### Runs to the end -/

/-- Asked for one token after the other the lexer gives these.  Then it is at the end of its source,
or stuck. -/
inductive Reads : Lexer → List Token → Option Unexpected → Lexer → Prop where
  | done {l m : Lexer} (h : l.next = (.ok none, m)) : Reads l [] none m
  | stuck {l m : Lexer} {bad : Unexpected} (h : l.next = (.error bad, m)) :
      Reads l [] (some bad) m
  | token {l m n : Lexer} {k : Token} {ks : List Token} {bad : Option Unexpected}
      (h : l.next = (.ok (some k), m)) (r : Reads m ks bad n) : Reads l (k :: ks) bad n

variable {ks ls : List Token} {bad : Option Unexpected}

/-- Every lexer has a run: each token takes a character. -/
theorem exists_reads (l : Lexer) : ∃ ks bad m, l.Reads ks bad m := by
  obtain ⟨source, here⟩ := l
  induction hn : here.rest.length using Nat.strong_induction_on generalizing here with
  | _ n ih =>
    subst hn
    cases step : Token.next here with
    | done there => exact ⟨[], none, ⟨source, there⟩, .done (next_done_iff.2 ⟨there, step, rfl⟩)⟩
    | stuck there c =>
      exact ⟨[], _, ⟨source, there⟩, .stuck (next_stuck_iff.2 ⟨there, c, step, rfl, rfl⟩)⟩
    | token k there =>
      obtain ⟨ks, bad, m, rest⟩ := ih _ (length_next_lt step) there rfl
      exact ⟨k :: ks, bad, m, .token (next_token_iff.2 ⟨there, step, rfl⟩) rest⟩

/-- A lexer reads one list of tokens, and ends in one way. -/
theorem Reads.unique {bad' : Option Unexpected} (h : l.Reads ks bad m) (k : l.Reads ls bad' n) :
    ks = ls ∧ bad = bad' ∧ m = n := by
  induction h generalizing ls with
  | done h =>
    cases k with
    | done k => rw [h] at k; cases k; exact ⟨rfl, rfl, rfl⟩
    | stuck k | token k => rw [h] at k; cases k
  | stuck h =>
    cases k with
    | stuck k => rw [h] at k; cases k; exact ⟨rfl, rfl, rfl⟩
    | done k | token k => rw [h] at k; cases k
  | token h _ ih =>
    cases k with
    | token k r =>
      rw [h] at k
      cases k
      obtain ⟨rfl, rfl, rfl⟩ := ih r
      exact ⟨rfl, rfl, rfl⟩
    | done k | stuck k => rw [h] at k; cases k

theorem Reads.source_eq (h : l.Reads ks bad m) : m.source = l.source := by
  induction h with
  | done h =>
    obtain ⟨there, -, rfl⟩ := next_done_iff.1 h
    rfl
  | stuck h =>
    obtain ⟨there, c, -, -, rfl⟩ := next_stuck_iff.1 h
    rfl
  | token h _ ih =>
    obtain ⟨there, -, rfl⟩ := next_token_iff.1 h
    exact ih

/-- A budget above the number of characters is enough for the run. -/
theorem Reads.upto (h : l.Reads ks bad m) {n : Nat} (hn : l.here.rest.length < n) :
    Token.upto n l.here = (ks, m.here, bad) := by
  induction h generalizing n with
  | done h =>
    obtain ⟨there, step, rfl⟩ := next_done_iff.1 h
    obtain _ | n := n
    · cases hn
    rw [Token.upto, step]
  | stuck h =>
    obtain ⟨there, c, step, rfl, rfl⟩ := next_stuck_iff.1 h
    obtain _ | n := n
    · cases hn
    rw [Token.upto, step]
  | token h _ ih =>
    obtain ⟨there, step, rfl⟩ := next_token_iff.1 h
    obtain _ | n := n
    · cases hn
    have shorter : there.rest.length < n :=
      Nat.lt_of_lt_of_le (length_next_lt step) (Nat.lt_succ_iff.1 hn)
    rw [Token.upto, step]
    dsimp only at ih ⊢
    rw [ih shorter]

/-- The run gives all tokens from the place of the lexer on. -/
theorem reads_iff_onward :
    l.Reads ks bad m ↔ Token.onward l.here = (ks, m.here, bad) ∧ m.source = l.source := by
  constructor
  · exact fun h => ⟨h.upto (Nat.lt_succ_self _), h.source_eq⟩
  · rintro ⟨all, same⟩
    obtain ⟨ls, bad', n, run⟩ := exists_reads l
    obtain ⟨source, here⟩ := m
    obtain ⟨source', here'⟩ := n
    obtain rfl : source' = l.source := run.source_eq
    obtain rfl : source = l.source := same
    have all' : Token.onward l.here = (ls, here', bad') := run.upto (Nat.lt_succ_self _)
    rw [all] at all'
    cases all'
    exact run

end Lexer

/-! ### Runs from place to place -/

namespace Token

/-- From the place on a lexer takes these tokens one after the other, up to the other place. -/
inductive Run : Cursor → List Token → Cursor → Prop where
  | nil (here : Cursor) : Run here [] here
  | cons {here there next : Cursor} {k : Token} {ks : List Token}
      (h : Token.next here = .token k there) (r : Run there ks next) : Run here (k :: ks) next

variable {here there : Cursor} {k : Token} {ks ls : List Token}

theorem run_nil_iff : Run here [] there ↔ there = here := by
  constructor
  · rintro ⟨⟩; rfl
  · rintro rfl; exact .nil _

theorem run_cons_iff :
    Run here (k :: ks) there ↔ ∃ mid, Token.next here = .token k mid ∧ Run mid ks there := by
  constructor
  · intro h
    cases h with
    | cons h r => exact ⟨_, h, r⟩
  · rintro ⟨mid, h, r⟩
    exact .cons h r

/-- A run over tokens in a row is a run over the first and one over the others. -/
theorem run_append_iff :
    Run here (ks ++ ls) there ↔ ∃ mid, Run here ks mid ∧ Run mid ls there := by
  induction ks generalizing here with
  | nil => simp [run_nil_iff]
  | cons k ks ih =>
    simp only [List.cons_append, run_cons_iff, ih]
    constructor
    · rintro ⟨first, step, mid, r, s⟩
      exact ⟨mid, ⟨first, step, r⟩, s⟩
    · rintro ⟨mid, ⟨first, step, r⟩, s⟩
      exact ⟨first, step, mid, r, s⟩

/-- The tokens of a run lie in the source. -/
theorem Run.laid (h : Run here ks there) : Laid here ks there := by
  induction h with
  | nil => exact .nil _
  | cons h _ ih => exact .cons (.of_next h) ih

theorem Run.inside {source : Text} (h : Run here ks there) (hin : here.In source) :
    there.In source :=
  Reached.inside (.laid h.laid) hin

/-- Behind the gap the same tokens are taken. -/
theorem Run.behindGap (h : Run here ks there) (ne : ks ≠ []) : Run (afterSkip here) ks there := by
  cases h with
  | nil => exact absurd rfl ne
  | cons step r => exact .cons ((next_afterSkip here).trans step) r

/-! #### More before the place -/

/-- Moving a cursor moves the token that is read there. -/
theorem next_of_moved {d : Nat} (h : Token.next (here.moved d) = .token k there) :
    ∃ l mid, Token.next here = .token l mid ∧ k = l.moved d ∧ there = mid.moved d := by
  obtain ⟨kind, u, r, found, rfl, rfl⟩ := Grammar.next_eq_token_iff.1 h
  rw [afterSkip_moved] at found ⊢
  refine ⟨_, _, Grammar.next_eq_token_iff.2 ⟨kind, u, r, found, rfl, rfl⟩, rfl, ?_⟩
  simp only [Cursor.moved, Cursor.mk.injEq, and_true]
  omega

/-- What is read behind more characters is read without them. -/
theorem Run.of_moved {d : Nat} (h : Run (here.moved d) ks there) :
    ∃ ls mid, Run here ls mid ∧ ls.map (Token.moved d) = ks ∧ mid.moved d = there := by
  induction ks generalizing here with
  | nil =>
    obtain rfl := run_nil_iff.1 h
    exact ⟨[], here, .nil here, rfl, rfl⟩
  | cons k ks ih =>
    obtain ⟨mid, step, r⟩ := run_cons_iff.1 h
    obtain ⟨l, mid, step', rfl, rfl⟩ := next_of_moved step
    obtain ⟨ls, last, s, rfl, rfl⟩ := ih r
    exact ⟨l :: ls, last, .cons step' s, rfl, rfl⟩

end Token

/-! #### The source cut off behind the place -/

namespace Grammar

/-- Where a comment starts one starts in every longer text. -/
theorem comment_isSome_append {t : Text} (h : (Lexeme.comment t).isSome) (s : Text) :
    (Lexeme.comment (t ++ s)).isSome := by
  obtain ⟨⟨u, r⟩, h⟩ := Option.isSome_iff_exists.1 h
  rcases comment_eq_some_iff.1 h with line | block
  · -- it may go on in what is new
    obtain ⟨body, rfl, rfl, -⟩ := lineComment_eq_some_iff.1 line
    simp [Lexeme.comment, Lexeme.lineComment, Reader.orElse, Reader.andThen, Reader.word,
      Reader.all]
  · obtain ⟨body, rfl, rfl, first⟩ := blockComment_eq_some_iff.1 block
    have longer := (blockComment_eq_some_iff (r := r ++ s)).2 ⟨body, rfl, rfl, first⟩
    rw [List.append_assoc, comment_eq_some_iff.2 (.inr longer)]
    rfl

/-- Where nothing is skipped nothing is skipped in a text cut off later. -/
theorem gapPiece_of_append {t s : Text} (h : gapPiece (t ++ s) = none) : gapPiece t = none := by
  have blank : Reader.some1 Text.isBlank t = none := by
    by_contra some
    obtain ⟨⟨u, r⟩, read⟩ := Option.ne_none_iff_exists'.1 some
    obtain ⟨rfl, ne, blanks, -⟩ := Reader.some1_eq_some_iff.1 read
    obtain ⟨v, w, -, longer⟩ := Lexeme.some1_reaches (r ++ s) ne blanks
    rw [List.append_assoc] at h
    simp [gapPiece, Reader.orElse, longer] at h
  have comment : Lexeme.comment t = none := by
    by_contra some
    have longer := comment_isSome_append (Option.isSome_iff_ne_none.2 some) s
    unfold gapPiece Reader.orElse at h
    split at h
    · rw [h] at longer
      cases longer
    · cases h
  simp [gapPiece, Reader.orElse, blank, comment]

/-- The longest token is the best one for the classes of the lexer. -/
theorem longest_eq_some_iff {t u r : Text} {kind : TokenKind} :
    longest t = some (kind, u, r) ↔ Spelling.Best Spelling.classes t (some (kind, u, r)) := by
  have best := Spelling.best_longestAmong Spelling.finds_classes t
  constructor
  · intro found
    rwa [show longestAmong Token.classes t = some (kind, u, r) from found] at best
  · exact fun found => best.unique found

/-- The longest lexeme stays the longest when the text is cut off behind it. -/
theorem longest_cut {u v s : Text} {kind : TokenKind}
    (h : longest (u ++ (v ++ s)) = some (kind, u, v ++ s)) :
    longest (u ++ v) = some (kind, u, v) := by
  obtain ⟨-, first, longest⟩ := longest_eq_some_iff.1 h
  refine longest_eq_some_iff.2 ⟨rfl, first, fun w x split spelled => longest w (x ++ s) ?_ spelled⟩
  rw [← List.append_assoc, split, List.append_assoc]

/-- The next token stays the next when the source is cut off behind it. -/
theorem next_cut {o n : Nat} {b v s : Text} {k : Token}
    (h : Token.next ⟨o, b ++ s⟩ = .token k ⟨n, v ++ s⟩) : Token.next ⟨o, b⟩ = .token k ⟨n, v⟩ := by
  obtain ⟨g, skipped, offset⟩ := exists_gap ⟨o, b ++ s⟩
  obtain ⟨whole, isGap, piece⟩ := gap_eq_some_iff.1 skipped
  obtain ⟨kind, u, r, found, rfl, there⟩ := next_eq_token_iff.1 h
  obtain ⟨rest, -⟩ := rest_of_next h
  have begins := (at_iff.1 (.of_next h)).2.1
  obtain ⟨rfl, rfl⟩ := Cursor.mk.inj there
  dsimp only at whole rest offset begins
  obtain rfl : b = g ++ (u ++ v) := by
    rw [rest, ← List.append_assoc u, ← List.append_assoc] at whole
    exact List.append_cancel_right whole
  rw [rest] at isGap piece found
  have skip : afterSkip ⟨o, g ++ (u ++ v)⟩ = ⟨o + g.length, u ++ v⟩ :=
    afterSkip_of_gap (gap_eq_some_iff.2
      ⟨rfl, isGap.congr (begins.head_append _),
        gapPiece_of_append (s := s) (by rwa [List.append_assoc])⟩)
  refine next_eq_token_iff.2 ⟨kind, u, v, ?_, ?_, ?_⟩
  · rw [skip]
    exact longest_cut found
  · rw [skip, offset]
  · rw [skip, offset]

end Grammar

/-- The same tokens are taken when the source is cut off behind the last. -/
theorem Token.Run.cut {o n : Nat} {b v s : Text} {ks : List Token}
    (h : Token.Run ⟨o, b ++ s⟩ ks ⟨n, v ++ s⟩) : Token.Run ⟨o, b⟩ ks ⟨n, v⟩ := by
  induction ks generalizing o b with
  | nil =>
    obtain ⟨rfl, same⟩ := Cursor.mk.inj (Token.run_nil_iff.1 h)
    obtain rfl := List.append_cancel_right same
    exact .nil _
  | cons k ks ih =>
    obtain ⟨⟨m, t⟩, step, r⟩ := Token.run_cons_iff.1 h
    obtain ⟨w, split⟩ := r.laid.exists_rest
    obtain rfl : t = (w ++ v) ++ s := by simpa using split
    exact .cons (next_cut step) (ih r)

/-! ### Runs from place to place, and to the end -/

namespace Lexer

variable {source : Text} {here : Cursor} {ks ls : List Token} {bad : Option Unexpected} {m : Lexer}

/-- A lexer reads the first token and then the others. -/
theorem reads_cons_iff {k : Token} :
    (Lexer.mk source here).Reads (k :: ks) bad m ↔
      ∃ mid, Token.next here = .token k mid ∧ (Lexer.mk source mid).Reads ks bad m := by
  constructor
  · intro h
    cases h with
    | token h r =>
      obtain ⟨mid, step, rfl⟩ := next_token_iff.1 h
      exact ⟨mid, step, r⟩
  · rintro ⟨mid, step, r⟩
    exact .token (next_token_iff.2 ⟨mid, step, rfl⟩) r

/-- A run goes on from each of its places as it does from the first. -/
theorem reads_append_iff :
    (Lexer.mk source here).Reads (ks ++ ls) bad m ↔
      ∃ mid, Token.Run here ks mid ∧ (Lexer.mk source mid).Reads ls bad m := by
  induction ks generalizing here with
  | nil => simp [Token.run_nil_iff]
  | cons k ks ih =>
    simp only [List.cons_append, reads_cons_iff, Token.run_cons_iff, ih]
    constructor
    · rintro ⟨first, step, mid, r, rest⟩
      exact ⟨mid, ⟨first, step, r⟩, rest⟩
    · rintro ⟨mid, ⟨first, step, r⟩, rest⟩
      exact ⟨first, step, mid, r, rest⟩

/-- Lexers read alike where their cursors do. -/
theorem next_congr {there : Cursor} (h : Token.next here = Token.next there) :
    (Lexer.mk source here).next = (Lexer.mk source there).next := by
  unfold next
  rw [h]

/-- Behind the gap the run is the same. -/
theorem Reads.behindGap (h : (Lexer.mk source here).Reads ks bad m) :
    (Lexer.mk source (afterSkip here)).Reads ks bad m := by
  have same : (Lexer.mk source (afterSkip here)).next = (Lexer.mk source here).next :=
    next_congr (next_afterSkip here)
  cases h with
  | done h => exact .done (same.trans h)
  | stuck h => exact .stuck (same.trans h)
  | token h r => exact .token (same.trans h) r

/-- A run that is not stuck has all tokens of the source. -/
theorem ofSource_eq_ok_iff_reads :
    Token.ofSource source = .ok ks ↔ ∃ m, (Lexer.ofSource source).Reads ks none m := by
  obtain ⟨ls, bad, m, run⟩ := exists_reads (Lexer.ofSource source)
  have all : Token.onward (.start source) = (ls, m.here, bad) := (reads_iff_onward.1 run).1
  unfold Token.ofSource
  rw [all]
  constructor
  · intro h
    cases bad <;> cases h
    exact ⟨m, run⟩
  · rintro ⟨n, run'⟩
    obtain ⟨rfl, rfl, -⟩ := run.unique run'
    rfl

end Lexer

end SolidScript
