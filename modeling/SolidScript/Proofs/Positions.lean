import Mathlib.Data.Prod.Lex
import SolidScript.Text.Position

/-!
# Positions — offsets, lines, columns and bytes

An offset in a source and the line and column of it are two names of one place: the lines before
the place, each with its line feed, and the characters before the column in its own line make up
what lies before the offset.  No other line and column do.  Greater offsets have later lines, or
later columns in the same line, and more bytes before them; and the bytes of the source, cut where
an offset says, are the encodings of what lies before the place and after it.

The last line has no line feed.  Counting one for it too spares a case: a source and one line feed
more are its lines, each with a line feed (`ended_lines`).

* `exists_split`: every offset is in one of the lines or at its end.
* `line_column_of_split`: the line and column of a position are read off the lines.
* `place_unique`: place, order and bytes, for every source that is known and every offset in it.
-/

namespace SolidScript.Position

/-- The lines of a source: what stands between its line feeds. -/
def lines (source : Text) : List Text := source.splitOn '\n'

/-- The lines, each with a line feed at its end. -/
def ended (ls : List Text) : Text := ls.flatMap fun l => l ++ ['\n']

/-- So many characters lie before the place in this line and column: those of the lines before, each
counted with its line feed, and those before the column. -/
structure LiesAt (source : Text) (line column offset : Nat) : Prop where
  line_pos : 1 ≤ line
  line_le : line ≤ (lines source).length
  column_pos : 1 ≤ column
  column_le : ∃ l, (lines source)[line - 1]? = some l ∧ column ≤ l.length + 1
  offset_eq : offset = (ended ((lines source).take (line - 1))).length + (column - 1)

/-! ### Lines -/

theorem ended_cons (l : Text) (ls : List Text) : ended (l :: ls) = l ++ '\n' :: ended ls := by
  simp [ended]

theorem ended_append (ls ms : List Text) : ended (ls ++ ms) = ended ls ++ ended ms :=
  List.flatMap_append

theorem lines_cons (c : Char) (source : Text) :
    lines (c :: source) =
      if c = '\n' then [] :: lines source else (lines source).modifyHead (List.cons c) := by
  simp [lines, List.splitOn_cons_eq_if_modifyHead]

/-- A source has a line, also when it is empty. -/
theorem exists_lines (source : Text) : ∃ l ls, lines source = l :: ls :=
  List.exists_cons_of_ne_nil (List.splitOn_ne_nil _ _)

/-- The lines of a source, each with a line feed, are the source and one line feed more. -/
theorem ended_lines (source : Text) : ended (lines source) = source ++ ['\n'] := by
  induction source with
  | nil => rfl
  | cons c source ih =>
    rw [lines_cons]
    split
    · rename_i feed
      rw [ended_cons, ih, feed]
      rfl
    · obtain ⟨l, ls, split⟩ := exists_lines source
      rw [split, ended_cons] at ih
      rw [split, List.modifyHead_cons, ended_cons, List.cons_append, ih]
      rfl

/-- No line has a line feed in it. -/
theorem feed_not_mem_lines (source : Text) : ∀ l ∈ lines source, '\n' ∉ l := by
  induction source with
  | nil => simp [lines]
  | cons c source ih =>
    rw [lines_cons]
    split
    · simpa using ih
    · rename_i other
      obtain ⟨l, ls, split⟩ := exists_lines source
      rw [split] at ih ⊢
      simpa [Ne.symm other] using ih

theorem count_ended {ls : List Text} (h : ∀ l ∈ ls, '\n' ∉ l) :
    (ended ls).count '\n' = ls.length := by
  induction ls with
  | nil => rfl
  | cons l ls ih =>
    rw [List.forall_mem_cons] at h
    rw [ended_cons, List.count_append, List.count_eq_zero_of_not_mem h.1, List.count_cons_self,
      ih h.2, List.length_cons, Nat.zero_add]

/-- Behind whole lines the last line feed is the one that ends them. -/
theorem takeWhile_reverse_ended (ls : List Text) {x : Text} (h : '\n' ∉ x) :
    (ended ls ++ x).reverse.takeWhile (· ≠ '\n') = x.reverse := by
  have before : ∀ c ∈ x.reverse, decide (c ≠ '\n') = true := by
    intro c hc
    refine decide_eq_true fun feed => h ?_
    rwa [← feed, ← List.mem_reverse]
  rw [List.reverse_append, List.takeWhile_append_of_pos before]
  rcases List.eq_nil_or_concat ls with rfl | ⟨ms, l, rfl⟩
  · simp [ended]
  · simp [ended]

/-- An offset is in one of the lines, or at its end. -/
theorem exists_split {ls : List Text} {offset : Nat} (h : offset < (ended ls).length) :
    ∃ before l after column, ls = before ++ l :: after ∧ column ≤ l.length ∧
      offset = (ended before).length + column := by
  induction ls generalizing offset with
  | nil => simp [ended] at h
  | cons l ls ih =>
    rw [ended_cons, List.length_append, List.length_cons] at h
    rcases Nat.lt_or_ge l.length offset with beyond | inside
    · have short : offset - (l.length + 1) < (ended ls).length := by omega
      obtain ⟨before, m, after, column, rfl, hc, ho⟩ := ih short
      refine ⟨l :: before, m, after, column, rfl, hc, ?_⟩
      rw [ended_cons, List.length_append, List.length_cons]
      omega
    · exact ⟨[], l, ls, offset, rfl, inside, (Nat.zero_add _).symm⟩

/-! ### The place of an offset -/

section Place
variable {source : Text} {offset : Nat} {origin : String}

theorem inside_of_le (known : source ≠ []) (inside : offset ≤ source.length) :
    (Position.mk origin offset source).inside = true := by
  simp [Position.inside, known, inside]

theorem before_eq (inside : offset ≤ source.length) :
    (Position.mk origin offset source).before = source.take offset := by
  have index : (Position.mk origin offset source).index = offset := by
    simp [Position.index, inside]
  rw [before, index]

/-- What lies before a place in a line: the lines before, each with its line feed, and the front of
its own line. -/
theorem take_of_split {before after : List Text} {l : Text} {column : Nat}
    (split : lines source = before ++ l :: after) (le : column ≤ l.length)
    (place : offset = (ended before).length + column) (inside : offset ≤ source.length) :
    source.take offset = ended before ++ l.take column := by
  have whole := ended_lines source
  rw [split, ended_append, ended_cons] at whole
  have longer : (source ++ ['\n']).take offset = source.take offset :=
    List.take_append_of_le_length inside
  rw [← longer, ← whole, place, List.take_length_add_append, List.take_append_of_le_length le]

/-- The line and the column are those of the split. -/
theorem line_column_of_split (origin : String) (known : source ≠ [])
    {before after : List Text} {l : Text} {column : Nat}
    (split : lines source = before ++ l :: after) (le : column ≤ l.length)
    (place : offset = (ended before).length + column) (inside : offset ≤ source.length) :
    (Position.mk origin offset source).line = before.length + 1 ∧
      (Position.mk origin offset source).column = column + 1 := by
  have feeds := feed_not_mem_lines source
  simp only [split, List.forall_mem_append, List.forall_mem_cons] at feeds
  obtain ⟨earlier, own, -⟩ := feeds
  have front : '\n' ∉ l.take column := fun h => own (List.mem_of_mem_take h)
  rw [line, Position.column, inside_of_le known inside, if_pos rfl, if_pos rfl, before_eq inside,
    take_of_split split le place inside]
  constructor
  · rw [List.count_append, count_ended earlier, List.count_eq_zero_of_not_mem front, Nat.add_zero]
  · rw [takeWhile_reverse_ended _ front, List.length_reverse, List.length_take, Nat.min_eq_left le]

theorem liesAt_of_split {before after : List Text} {l : Text} {column : Nat}
    (split : lines source = before ++ l :: after) (le : column ≤ l.length)
    (place : offset = (ended before).length + column) :
    LiesAt source (before.length + 1) (column + 1) offset where
  line_pos := Nat.le_add_left _ _
  line_le := by simp [split]
  column_pos := Nat.le_add_left _ _
  column_le := ⟨l, by simp [split], Nat.succ_le_succ le⟩
  offset_eq := by simp [split, place]

theorem LiesAt.exists_split {line column : Nat} (h : LiesAt source line column offset) :
    ∃ before l after, lines source = before ++ l :: after ∧ before.length = line - 1 ∧
      column - 1 ≤ l.length ∧ offset = (ended before).length + (column - 1) := by
  obtain ⟨l, own, le⟩ := h.column_le
  obtain ⟨short, own⟩ := List.getElem?_eq_some_iff.1 own
  refine ⟨(lines source).take (line - 1), l, (lines source).drop (line - 1 + 1), ?_, ?_, ?_,
    h.offset_eq⟩
  · rw [← own, ← List.drop_eq_getElem_cons short, List.take_append_drop]
  · rw [List.length_take, Nat.min_eq_left short.le]
  · omega

/-- An offset lies in the line and column of its position, and in no others. -/
theorem liesAt_iff (known : source ≠ []) (inside : offset ≤ source.length) {line column : Nat} :
    LiesAt source line column offset ↔
      line = (Position.mk origin offset source).line ∧
        column = (Position.mk origin offset source).column := by
  constructor
  · intro lies
    obtain ⟨before, l, after, split, length, le, place⟩ := lies.exists_split
    obtain ⟨hl, hc⟩ := line_column_of_split origin known split le place inside
    have := lies.line_pos
    have := lies.column_pos
    omega
  · rintro ⟨rfl, rfl⟩
    have short : offset < (ended (lines source)).length := by
      rw [ended_lines, List.length_append]
      exact Nat.lt_succ_of_le inside
    obtain ⟨before, l, after, column, split, le, place⟩ := Position.exists_split short
    obtain ⟨hl, hc⟩ := line_column_of_split origin known split le place inside
    rw [hl, hc]
    exact liesAt_of_split split le place

end Place

/-! ### Bytes -/

theorem size_utf8Encode (t : Text) : t.utf8Encode.size = bytes t := by
  induction t with
  | nil => rfl
  | cons c t ih =>
    have size : [c].utf8Encode.size = bytes [c] := by
      simp [List.utf8Encode_singleton, bytes]
    rw [List.utf8Encode_cons, ByteArray.size_append, size, ih, ← bytes_append,
      List.singleton_append]

theorem bytes_pos {t : Text} (h : t ≠ []) : 0 < bytes t := by
  obtain ⟨c, t, rfl⟩ := List.exists_cons_of_ne_nil h
  have first : 0 < bytes [c] := by simpa [bytes] using c.utf8Size_pos
  rw [← List.singleton_append, bytes_append]
  omega

/-- What lies before a later place goes on from what lies before an earlier one. -/
theorem exists_take_append {source : Text} {offset other : Nat} (lt : offset < other)
    (inside : other ≤ source.length) :
    ∃ mid, mid ≠ [] ∧ source.take other = source.take offset ++ mid := by
  obtain ⟨k, rfl⟩ := Nat.exists_eq_add_of_lt lt
  refine ⟨(source.drop offset).take (k + 1), ?_, by rw [Nat.add_assoc, List.take_add]⟩
  rw [← List.length_pos_iff, List.length_take, List.length_drop]
  omega

/-- The encoding of a source, cut between the bytes of what lies before a place and of what lies
after it. -/
theorem decode_cut (u v : Text) :
    ((u ++ v).utf8Encode.extract 0 (bytes u)).utf8Decode? = some u.toArray ∧
      ((u ++ v).utf8Encode.extract (bytes u) (u ++ v).utf8Encode.size).utf8Decode? =
        some v.toArray := by
  rw [List.utf8Encode_append, ByteArray.extract_append_eq_left (size_utf8Encode u).symm,
    ByteArray.extract_append_eq_right (size_utf8Encode u).symm ByteArray.size_append,
    List.utf8Decode?_utf8Encode, List.utf8Decode?_utf8Encode]
  exact ⟨rfl, rfl⟩

/-! ### Places in order -/

/-- More characters before a place make for a later line, or a later column in the same line. -/
theorem lex_lt_of_append {u mid : Text} (h : mid ≠ []) :
    toLex (u.count '\n' + 1, (u.reverse.takeWhile (· ≠ '\n')).length + 1) <
      toLex ((u ++ mid).count '\n' + 1, ((u ++ mid).reverse.takeWhile (· ≠ '\n')).length + 1) := by
  have more := List.length_pos_iff.2 h
  rw [Prod.Lex.toLex_lt_toLex, List.count_append]
  by_cases feed : '\n' ∈ mid
  · have := List.count_pos_iff.2 feed
    left
    dsimp only
    omega
  · have same : ∀ c ∈ mid.reverse, decide (c ≠ '\n') = true := by
      intro c hc
      refine decide_eq_true fun he => feed ?_
      rwa [← he, ← List.mem_reverse]
    right
    rw [List.count_eq_zero_of_not_mem feed, List.reverse_append, List.takeWhile_append_of_pos same,
      List.length_append, List.length_reverse]
    dsimp only
    omega

/-- In a source that is known, an offset lies in the line and column of its position and in no
others; a greater offset has a later place and more bytes before it; and the bytes before it decode
to what lies before the place, the others to what lies after it. -/
theorem place_unique {p : Position} (known : p.source ≠ [])
    (inside : 0 ≤ p.offset ∧ p.offset ≤ p.source.length) :
    (∀ line column, LiesAt p.source line column p.offset.toNat ↔
      line = p.line ∧ column = p.column) ∧
    (∀ q : Position, q.source = p.source → p.offset < q.offset → q.offset ≤ q.source.length →
      toLex (p.line, p.column) < toLex (q.line, q.column) ∧ p.byteOffset < q.byteOffset) ∧
    ∃ cut : Nat, p.byteOffset = cut ∧
      (p.source.utf8Encode.extract 0 cut).utf8Decode? =
        some (p.source.take p.offset.toNat).toArray ∧
      (p.source.utf8Encode.extract cut p.source.utf8Encode.size).utf8Decode? =
        some (p.source.drop p.offset.toNat).toArray := by
  obtain ⟨origin, offset, source⟩ := p
  dsimp only at known inside ⊢
  obtain ⟨o, rfl⟩ := Int.eq_ofNat_of_zero_le inside.1
  have le : o ≤ source.length := Int.ofNat_le.1 inside.2
  have unknown : source.isEmpty = false := by simpa using known
  rw [Int.toNat_natCast]
  refine ⟨fun line column => liesAt_iff known le, ?_, bytes (source.take o), ?_, ?_⟩
  · rintro ⟨origin', other, source'⟩ he lt le'
    dsimp only at he lt le'
    subst he
    obtain ⟨o', rfl⟩ := Int.eq_ofNat_of_zero_le (inside.1.trans lt.le)
    have le' : o' ≤ source'.length := Int.ofNat_le.1 le'
    obtain ⟨mid, more, front⟩ := exists_take_append (Int.ofNat_lt.1 lt) le'
    constructor
    · simp only [line, column, inside_of_le known le, inside_of_le known le', if_true, before_eq le,
        before_eq le', front]
      exact lex_lt_of_append more
    · have := bytes_pos more
      simp only [byteOffset, unknown, Bool.false_eq_true, if_false, before_eq le, before_eq le',
        front, bytes_append]
      omega
  · simp only [byteOffset, unknown, Bool.false_eq_true, if_false, before_eq le]
  · have cut := decode_cut (source.take o) (source.drop o)
    rwa [List.take_append_drop] at cut

/-- After three characters of two, one and four bytes, the second a line feed. -/
theorem place_unique_wide :
    LiesAt (Text.lit "é\n😀b") 2 2 3 ∧
      (Position.mk "" 3 (Text.lit "é\n😀b")).byteOffset <
        (Position.mk "" 4 (Text.lit "é\n😀b")).byteOffset ∧
      ((Text.lit "é\n😀b").utf8Encode.extract 0 7).utf8Decode? =
        some (Text.lit "é\n😀").toArray := by
  obtain ⟨lies, later, cut, bytes, before, -⟩ :=
    place_unique (p := ⟨"", 3, Text.lit "é\n😀b"⟩) (by decide) (by decide)
  have seven : (Position.mk "" 3 (Text.lit "é\n😀b")).byteOffset = 7 := by decide +kernel
  obtain rfl : cut = 7 := Int.ofNat_inj.1 (bytes.symm.trans seven)
  refine ⟨(lies 2 2).2 (by decide +kernel), ?_, before⟩
  exact (later ⟨"", 4, Text.lit "é\n😀b"⟩ rfl (by decide) (by decide)).2

end SolidScript.Position
