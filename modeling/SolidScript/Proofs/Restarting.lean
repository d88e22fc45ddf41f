import SolidScript.Proofs.Phrase.Run

/-!
# Lexers — cut off and begun again

Lexing is local.  The tokens of a source from one of them to another are those of the part of the
source between their ends, and a lexer that is put at a token, or behind the one before it, reads on
from there as it did the first time, whatever it has read before.

Both come from where a run stands before a token (`exists_place`): there the gap before the token
may be left out, as nothing can be skipped behind it, and the source may be cut off behind any later
token.

* `reads_between_and_onward`: the part of the source, and the lexer that is put at its start.
-/

namespace SolidScript
open Grammar

variable {source : Text} {ks : List Token} {bad : Option Unexpected} {m : Lexer} {i j : Nat}
variable {a b : Token}

/-- A lexer can be put at every offset of its source. -/
theorem Lexer.seek_eq_ok {l : Lexer} {n : Nat} (le : n ≤ l.source.length) :
    l.seek n = .ok ⟨l.source, .within l.source n⟩ := by
  have range : 0 ≤ (n : Int) ∧ (n : Int) ≤ l.source.length :=
    ⟨Int.natCast_nonneg n, Int.ofNat_le.2 le⟩
  rw [Lexer.seek, if_pos range, Int.toNat_natCast]

theorem Cursor.In.eq_within {here : Cursor} (inside : here.In source) :
    here = .within source here.offset :=
  inside.ext (Cursor.within_in inside.1) rfl

/-- Where a run stands before a token: behind the tokens before it, and with the gap before it still
to be passed over. -/
theorem exists_place (h : (Lexer.ofSource source).Reads ks bad m) (ha : ks[i]? = some a) :
    ∃ here, here.In source ∧ Token.Run (.start source) (ks.take i) here ∧
      (Lexer.mk source here).Reads (ks.drop i) bad m ∧
      afterSkip here = .within source a.start := by
  rw [← List.take_append_drop i ks] at h
  obtain ⟨here, run, rest⟩ := Lexer.reads_append_iff.1 h
  have inside := run.inside (Cursor.start_in source)
  refine ⟨here, inside, run, rest, ?_⟩
  obtain ⟨lt, rfl⟩ := List.getElem?_eq_some_iff.1 ha
  rw [List.drop_eq_getElem_cons lt] at rest
  obtain ⟨mid, step, -⟩ := Lexer.reads_cons_iff.1 rest
  rw [(rest_of_next step).2.2.1]
  exact (afterSkip_in inside).eq_within

/-- A run ends behind its last token. -/
theorem Token.Run.offset_eq {here there : Cursor} {ls : List Token}
    (h : Token.Run here (ls ++ [a]) there) : there.offset = a.stop := by
  obtain ⟨mid, -, last⟩ := Token.run_append_iff.1 h
  obtain ⟨next, step, stays⟩ := Token.run_cons_iff.1 last
  obtain rfl := Token.run_nil_iff.1 stays
  exact (rest_of_next step).2.2.2

/-- A run from the first place to the last takes all tokens of a source. -/
theorem Token.Run.ofSource_eq {there : Cursor} (h : Token.Run (.start source) ks there)
    (rest : there.rest = []) : Token.ofSource source = .ok ks := by
  have nothing : (afterSkip there).rest = [] := by
    obtain ⟨g, skipped, -⟩ := exists_gap there
    have split := (gap_eq_some_iff.1 skipped).1
    rw [rest] at split
    exact (List.append_eq_nil_iff.1 split.symm).2
  have done : (Lexer.mk source there).Reads [] none ⟨source, afterSkip there⟩ :=
    .done (Lexer.next_done_iff.2 ⟨_, next_eq_done_iff.2 ⟨nothing, rfl⟩, rfl⟩)
  have run := Lexer.reads_append_iff.2 ⟨there, h, done⟩
  rw [List.append_nil] at run
  exact Lexer.ofSource_eq_ok_iff_reads.2 ⟨_, run⟩

/-- The tokens from one to another are those of what the source has between them. -/
theorem ofSource_between (h : (Lexer.ofSource source).Reads ks bad m) (ha : ks[i]? = some a)
    (hb : ks[j]? = some b) (le : i ≤ j) :
    ∃ ls, Token.ofSource (source.extract a.start b.stop) = .ok ls ∧
      ls.map (Token.moved a.start) = ks.extract i (j + 1) := by
  obtain ⟨here, inside, -, rest, skipped⟩ := exists_place h ha
  have upTo : ks.extract i (j + 1) = (ks.drop i).take (j - i) ++ [b] := by
    have last : (ks.drop i)[j - i]? = some b := by
      rw [List.getElem?_drop, Nat.add_sub_cancel' le, hb]
    rw [List.extract_eq_take_drop, Nat.sub_add_comm le, List.take_add_one, last]
    rfl
  have split : ks.extract i (j + 1) ++ ks.drop (j + 1) = ks.drop i := by
    have whole := List.take_append_drop (j + 1 - i) (ks.drop i)
    rwa [List.drop_drop, Nat.add_sub_cancel' (le.trans (Nat.le_succ j))] at whole
  rw [← split] at rest
  obtain ⟨there, run, -⟩ := Lexer.reads_append_iff.1 rest
  have inside' := run.inside inside
  have stop : there.offset = b.stop := by
    rw [upTo] at run
    exact run.offset_eq
  -- the gap before the first token is left out, and what follows the last
  have run := run.behindGap (by simp [upTo])
  obtain ⟨w, rest⟩ := run.laid.exists_rest
  have length := run.laid.offset_add
  rw [rest, List.length_append] at length
  have part : source.extract a.start b.stop = w := by
    have between := (afterSkip_in inside).extract rest (by omega)
    rwa [stop, skipped] at between
  rw [skipped] at run rest
  obtain ⟨n, r⟩ := there
  obtain rfl : n = b.stop := stop
  have first : Cursor.within source a.start = ⟨a.start, w ++ r⟩ :=
    congrArg (Cursor.mk a.start) rest
  rw [first] at run
  have cut : Token.Run ⟨a.start, w⟩ (ks.extract i (j + 1)) ⟨b.stop, []⟩ :=
    Token.Run.cut (v := []) run
  have moved : (⟨a.start, w⟩ : Cursor) = (Cursor.start w).moved a.start :=
    congrArg (Cursor.mk · w) (Nat.zero_add a.start).symm
  rw [moved] at cut
  obtain ⟨ls, last, run, same, ends⟩ := cut.of_moved
  rw [part]
  exact ⟨ls, run.ofSource_eq (Cursor.mk.inj ends).2, same⟩

/-- The tokens of a source from one of them to another are the tokens of the part of the source
between their ends, further to the front; and a lexer that is put at the start of the first, or at
the end of the one before it, whatever it has read before, gives the tokens from there on and then
ends as the first reading did. -/
theorem reads_between_and_onward (h : (Lexer.ofSource source).Reads ks bad m)
    (ha : ks[i]? = some a) (hb : ks[j]? = some b) (le : i ≤ j) :
    (∃ ls, Token.ofSource (source.extract a.start b.stop) = .ok ls ∧
      ls.map (Token.moved a.start) = ks.extract i (j + 1)) ∧
    ∀ l : Lexer, l.source = source →
      (∃ n, l.seek a.start = .ok n ∧ n.Reads (ks.drop i) bad m) ∧
      ∀ p, 0 < i → ks[i - 1]? = some p → ∃ n, l.seek p.stop = .ok n ∧ n.Reads (ks.drop i) bad m := by
  refine ⟨ofSource_between h ha hb le, ?_⟩
  rintro l rfl
  obtain ⟨here, inside, run, rest, skipped⟩ := exists_place h ha
  constructor
  · have at_token := afterSkip_in inside
    have again := rest.behindGap
    rw [skipped] at at_token again
    exact ⟨_, Lexer.seek_eq_ok at_token.1, again⟩
  · intro p pos hp
    have before : ks.take i = ks.take (i - 1) ++ [p] := by
      obtain ⟨i, rfl⟩ := Nat.exists_eq_succ_of_ne_zero pos.ne'
      rw [Nat.succ_sub_one] at hp ⊢
      rw [List.take_add_one, hp]
      rfl
    rw [before] at run
    have stop := run.offset_eq
    rw [inside.eq_within, stop] at rest
    exact ⟨_, Lexer.seek_eq_ok (stop ▸ inside.1), rest⟩

/-- A string behind a comment with a quote in it, read from there up to a character that starts no
token. -/
theorem reads_between_and_onward_string :
    (∃ ls, Token.ofSource (Text.lit "\"b/*\"/") = .ok ls ∧ ls.map (Token.moved 7) =
      [⟨.string, Text.lit "\"b/*\"", 7⟩, ⟨.symbol, ['/'], 12⟩]) ∧
    ∃ n m, (Lexer.ofSource (Text.lit "x /*\"*/\"b/*\"/@")).seek 1 = .ok n ∧
      n.Reads [⟨.string, Text.lit "\"b/*\"", 7⟩, ⟨.symbol, ['/'], 12⟩] (some ⟨13, '@'⟩) m := by
  have run : (Lexer.ofSource (Text.lit "x /*\"*/\"b/*\"/@")).Reads
      [⟨.identifier, ['x'], 0⟩, ⟨.string, Text.lit "\"b/*\"", 7⟩, ⟨.symbol, ['/'], 12⟩]
      (some ⟨13, '@'⟩) ⟨Text.lit "x /*\"*/\"b/*\"/@", ⟨13, ['@']⟩⟩ :=
    Lexer.reads_iff_onward.2 ⟨by decide +kernel, rfl⟩
  obtain ⟨between, onward⟩ := reads_between_and_onward (i := 1) (j := 2) run rfl rfl (by decide)
  obtain ⟨n, sought, again⟩ := (onward (Lexer.ofSource _) rfl).2 _ (by decide) rfl
  exact ⟨between, n, _, sought, again⟩

end SolidScript
