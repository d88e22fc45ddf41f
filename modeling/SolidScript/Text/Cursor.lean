import SolidScript.Text.Reader

/-!
# Text — cursors

A cursor is a place in a source: how many characters lie before it, and those that lie after it.
-/

namespace SolidScript

/-- A place in a source. -/
structure Cursor where
  /-- The number of characters before the place. -/
  offset : Nat
  /-- The characters after it. -/
  rest : Text
deriving DecidableEq

namespace Cursor

/-- The place before the first character. -/
def start (source : Text) : Cursor := ⟨0, source⟩

/-- The place after `offset` characters of the source. -/
def within (source : Text) (offset : Nat) : Cursor := ⟨offset, source.drop offset⟩

/-- The lexeme that a reader takes here, and the place after it. -/
def read (reader : Reader) (here : Cursor) : Option (Text × Cursor) :=
  (reader here.rest).map fun (u, r) => (u, ⟨here.offset + u.length, r⟩)

/-- `here` is a place in `source`. -/
def In (here : Cursor) (source : Text) : Prop :=
  here.offset ≤ source.length ∧ here.rest = source.drop here.offset

theorem start_in (source : Text) : (start source).In source := by
  simp [In, start]

theorem within_in {source : Text} {offset : Nat} (h : offset ≤ source.length) :
    (within source offset).In source := ⟨h, rfl⟩

/-- Reading stays in the source. -/
theorem read_in {reader : Reader} (hr : reader.Splits) {source u : Text} {here next : Cursor}
    (hin : here.In source) (h : here.read reader = some (u, next)) : next.In source := by
  obtain ⟨⟨v, r⟩, hv, he⟩ := Option.map_eq_some_iff.1 h
  cases he
  have hs : u ++ r = source.drop here.offset := (hr.append_eq hv).trans hin.2
  have hl : (u ++ r).length = source.length - here.offset := by rw [hs, List.length_drop]
  rw [List.length_append] at hl
  have := hin.1
  refine ⟨show here.offset + u.length ≤ source.length by omega, ?_⟩
  change r = source.drop (here.offset + u.length)
  rw [← List.drop_drop, ← hs, List.drop_left]

/-- What is read is what lies between the places. -/
theorem rest_of_read {reader : Reader} (hr : reader.Splits) {u : Text} {here next : Cursor}
    (h : here.read reader = some (u, next)) :
    here.rest = u ++ next.rest ∧ next.offset = here.offset + u.length := by
  obtain ⟨⟨v, r⟩, hv, he⟩ := Option.map_eq_some_iff.1 h
  cases he
  exact ⟨(hr.append_eq hv).symm, rfl⟩

theorem length_read_le {reader : Reader} (hr : reader.Splits) {u : Text} {here next : Cursor}
    (h : here.read reader = some (u, next)) : next.rest.length ≤ here.rest.length := by
  rw [(rest_of_read hr h).1, List.length_append]
  exact Nat.le_add_left _ _

theorem length_read_lt {reader : Reader} (hr : reader.Splits) (ht : reader.Takes) {u : Text}
    {here next : Cursor} (h : here.read reader = some (u, next)) :
    next.rest.length < here.rest.length := by
  obtain ⟨⟨v, r⟩, hv, he⟩ := Option.map_eq_some_iff.1 h
  cases he
  rw [(rest_of_read hr h).1, List.length_append]
  have := List.length_pos_iff.2 (ht.ne_nil hv)
  exact Nat.lt_add_of_pos_left this

end Cursor

end SolidScript
