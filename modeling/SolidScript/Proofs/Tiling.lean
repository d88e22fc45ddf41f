import SolidScript.Proofs.Phrase.Run

/-!
# Lexers — gaps and tokens make up the source

Reading loses no character and reads none twice: up to where a lexer stops, the source is gaps and
tokens in turn.  A gap is blanks and complete comments, whatever the source holds: a comment that is
not closed is symbols, a string that is not closed is where the lexer is stuck.

* `Tiles`: gaps and tokens in turn, from one offset of a source to another.
* `tiles_of_next`: one step of a lexer adds a gap and a token.
* `exists_tiles`: so does a run, and where it is stuck it stays stuck.
-/

namespace SolidScript
open Grammar
open Text (isBlank)

/-! ### Gaps and tokens in turn -/

/-- What the source has between the offsets is a gap before what comes then. -/
structure GapBetween (source : Text) (start stop : Nat) : Prop where
  le : start ≤ stop
  isGap : IsGap (source.extract start stop) (source.drop stop)

/-- Between the offsets the source is these gaps and these tokens, in turn, a gap first and last. -/
inductive Tiles (source : Text) : Nat → List Text → List Token → Nat → Prop where
  | gap {start stop : Nat} (inside : stop ≤ source.length) (gap : GapBetween source start stop) :
      Tiles source start [source.extract start stop] [] stop
  | token {start stop : Nat} {k : Token} {gs : List Text} {ks : List Token}
      (gap : GapBetween source start k.start) (some : k.start < k.stop)
      (text : source.extract k.start k.stop = k.text) (rest : Tiles source k.stop gs ks stop) :
      Tiles source start (source.extract start k.start :: gs) (k :: ks) stop

/-- The gaps and the texts of the tokens, in turn. -/
def woven : List Text → List Token → Text
  | g :: gs, k :: ks => g ++ k.text ++ woven gs ks
  | gs,      _       => gs.flatten

variable {source : Text} {here there : Cursor} {gs : List Text} {ks : List Token}
variable {start stop : Nat}

theorem extract_append_extract {mid : Nat} (le : start ≤ mid) (le' : mid ≤ stop) :
    source.extract start mid ++ source.extract mid stop = source.extract start stop := by
  have lengths : stop - start = (mid - start) + (stop - mid) := by omega
  simp only [List.extract_eq_take_drop]
  rw [lengths, List.take_add, List.drop_drop, Nat.add_sub_cancel' le]

theorem Tiles.le (h : Tiles source start gs ks stop) : start ≤ stop := by
  induction h with
  | gap _ gap => exact gap.le
  | token gap some _ _ ih => exact gap.le.trans (some.le.trans ih)

/-- Gaps and tokens put together are what the source has there. -/
theorem Tiles.woven_eq (h : Tiles source start gs ks stop) :
    woven gs ks = source.extract start stop := by
  induction h with
  | gap => exact List.append_nil _
  | @token start stop k gs ks gap some text rest ih =>
    calc source.extract start k.start ++ k.text ++ woven gs ks
        = source.extract start k.start ++ source.extract k.start k.stop ++
            source.extract k.stop stop := by rw [ih, text]
      _ = source.extract start k.stop ++ source.extract k.stop stop := by
        rw [extract_append_extract gap.le some.le]
      _ = source.extract start stop := extract_append_extract (gap.le.trans some.le) rest.le

/-! ### Steps -/

/-- What is passed over is a gap. -/
theorem gapBetween_afterSkip (inside : here.In source) :
    GapBetween source here.offset (afterSkip here).offset := by
  obtain ⟨g, skipped, offset⟩ := exists_gap here
  obtain ⟨split, isGap, -⟩ := gap_eq_some_iff.1 skipped
  refine ⟨offset ▸ Nat.le_add_right _ _, ?_⟩
  rw [inside.extract split offset, ← (afterSkip_in inside).2]
  exact isGap

/-- A token that is read stands between its offsets, behind a gap. -/
theorem tiles_of_next {k : Token} (inside : here.In source)
    (h : Token.next here = .token k there) :
    GapBetween source here.offset k.start ∧ k.start < k.stop ∧
      source.extract k.start k.stop = k.text ∧ there.In source ∧ there.offset = k.stop := by
  obtain ⟨split, ne, start, stop⟩ := rest_of_next h
  have gap := gapBetween_afterSkip inside
  have text := (afterSkip_in inside).extract split (start ▸ stop)
  rw [← start] at gap text
  rw [stop] at text
  exact ⟨gap, Nat.lt_add_of_pos_right (List.length_pos_iff.2 ne), text,
    (At.of_next h).inside inside, stop⟩

/-- A lexer is stuck before a character that is no blank and starts no comment. -/
theorem head_of_stuck {c : Char} (h : Token.next here = .stuck there c) :
    there = afterSkip here ∧ there.rest.head? = some c ∧ isBlank c = false ∧ c ≠ '/' := by
  obtain rfl := eq_of_next_stuck h
  obtain ⟨g, skipped, -⟩ := exists_gap here
  have ends := gapPiece_of_gap skipped
  rw [next_eq] at h
  split at h
  · cases h
  · rename_i d r rest
    split at h
    · rename_i unread
      cases h
      rw [rest] at unread ends ⊢
      refine ⟨rfl, rfl, ?_, ?_⟩
      · by_contra blank
        have read := gap_cons_of_isBlank (Bool.not_eq_false _ |>.mp blank) r
        rw [gap, Reader.many_of_none ends] at read
        obtain ⟨o, -, he⟩ := Option.map_eq_some_iff.1 read.symm
        cases he
      · -- a stroke is a symbol, if it starts no comment
        rintro rfl
        have best := Spelling.best_longestAmong Spelling.finds_classes ('/' :: r)
        rw [show Token.longestAmong Token.classes ('/' :: r) = none from unread] at best
        refine best ['/'] r rfl ⟨(.symbol, Spelling.anyOf Lexeme.symbols), by
          simp [Spelling.classes], Spelling.spells_anyOf_iff.2 (by decide)⟩
    · cases h

/-- A lexer that is stuck is stuck again. -/
theorem next_of_stuck {c : Char} (h : Token.next here = .stuck there c) :
    Token.next there = .stuck there c := by
  have skipped := eq_of_next_stuck h
  rw [skipped, next_afterSkip, h, skipped]

/-! ### Runs -/

/-- The tokens of a run, and what is passed over before each of them and behind the last, make up the
source from where the run starts to where it ends. -/
theorem exists_tiles_of_reads {l m : Lexer} {bad : Option Unexpected} (h : l.Reads ks bad m)
    (inside : l.here.In l.source) :
    ∃ gs, Tiles l.source l.position gs ks m.position := by
  induction h with
  | @done l m h =>
    obtain ⟨there, step, rfl⟩ := Lexer.next_done_iff.1 h
    obtain ⟨-, rfl⟩ := next_eq_done_iff.1 step
    exact ⟨_, .gap (afterSkip_in inside).1 (gapBetween_afterSkip inside)⟩
  | @stuck l m bad h =>
    obtain ⟨there, c, step, -, rfl⟩ := Lexer.next_stuck_iff.1 h
    obtain rfl := eq_of_next_stuck step
    exact ⟨_, .gap (afterSkip_in inside).1 (gapBetween_afterSkip inside)⟩
  | @token l m n k ks bad h _ ih =>
    obtain ⟨there, step, rfl⟩ := Lexer.next_token_iff.1 h
    obtain ⟨gap, some, text, inside', offset⟩ := tiles_of_next inside step
    obtain ⟨gs, rest⟩ := ih inside'
    have rest : Tiles l.source k.stop gs ks n.position := offset ▸ rest
    exact ⟨_, .token gap some text rest⟩

/-- How a run ends: at the end of the source, or before a character that stays in the way. -/
theorem ending_of_reads {l m : Lexer} {bad : Option Unexpected} (h : l.Reads ks bad m)
    (inside : l.here.In l.source) :
    (bad = none → m.position = l.source.length) ∧
      ∀ u, bad = some u → m.position = u.offset ∧ l.source[u.offset]? = some u.char ∧
        isBlank u.char = false ∧ u.char ≠ '/' ∧ m.next = (.error u, m) := by
  induction h with
  | @done l m h =>
    obtain ⟨there, step, rfl⟩ := Lexer.next_done_iff.1 h
    obtain ⟨rest, rfl⟩ := next_eq_done_iff.1 step
    obtain ⟨le, drop⟩ := afterSkip_in inside
    refine ⟨fun _ => le.antisymm ?_, fun u he => by cases he⟩
    exact List.drop_eq_nil_iff.1 (drop.symm.trans rest)
  | @stuck l m bad h =>
    obtain ⟨there, c, step, rfl, rfl⟩ := Lexer.next_stuck_iff.1 h
    obtain ⟨rfl, head, notBlank, notStroke⟩ := head_of_stuck step
    refine ⟨fun he => (by cases he), fun u he => ?_⟩
    obtain rfl := Option.some.inj he
    refine ⟨rfl, ?_, notBlank, notStroke,
      Lexer.next_stuck_iff.2 ⟨_, c, next_of_stuck step, rfl, rfl⟩⟩
    rw [← List.head?_drop, ← (afterSkip_in inside).2, head]
  | @token l m n k ks bad h _ ih =>
    obtain ⟨there, step, rfl⟩ := Lexer.next_token_iff.1 h
    exact ih (tiles_of_next inside step).2.2.2.1

/-- A lexer reads a source to its end or to a character that starts no token.  What it has read is
gaps and tokens in turn, each token the text between its offsets, and put together they are the
source up to there.  That character is neither a blank nor the start of a comment, and the lexer
stays before it, whatever it is asked. -/
theorem exists_tiles (source : Text) :
    ∃ ks bad m gs, (Lexer.ofSource source).Reads ks bad m ∧
      Tiles source 0 gs ks m.position ∧ woven gs ks = source.take m.position ∧
      (bad = none → m.position = source.length) ∧
      ∀ u, bad = some u → m.position = u.offset ∧ source[u.offset]? = some u.char ∧
        isBlank u.char = false ∧ u.char ≠ '/' ∧ m.next = (.error u, m) := by
  obtain ⟨ks, bad, m, run⟩ := Lexer.exists_reads (Lexer.ofSource source)
  have inside := Cursor.start_in source
  obtain ⟨gs, tiles⟩ := exists_tiles_of_reads run inside
  obtain ⟨done, stuck⟩ := ending_of_reads run inside
  exact ⟨ks, bad, m, gs, run, tiles, tiles.woven_eq, done, stuck⟩

end SolidScript
