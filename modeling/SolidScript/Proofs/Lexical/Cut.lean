import Mathlib.Data.Bool.AllAny
import SolidScript.Proofs.Lexical.Longest
import SolidScript.Proofs.Lexical.Token

/-!
# Lexical — what follows a token changed

A token stays the token when the text some way after it is changed, unless a longer lexeme comes
about (`front_cut_of`).  Only a string has a blank in it, and no string is the front of another; so
a blank ends a token, whatever comes then (`front_cut`).
-/

namespace SolidScript.Lexeme
open Spelling (Best IsFirst Spelled best_longestAmong finds_plainClasses)
open Token (longestAmong reclassify)
open Text (isBlank isDigit isWord)

theorem front_eq_some_iff {t u r : Text} {kind : TokenKind} :
    front t = some (kind, u, r) ↔
      ∃ k, Best Spelling.plainClasses t (some (k, u, r)) ∧ kind = reclassify k u := by
  have best := best_longestAmong finds_plainClasses t
  unfold front
  constructor
  · intro h
    obtain ⟨⟨k, v, s⟩, hv, he⟩ := Option.map_eq_some_iff.1 h
    cases he
    rw [hv] at best
    exact ⟨k, best, rfl⟩
  · rintro ⟨k, hb, rfl⟩
    rw [best.unique hb]
    rfl

/-- The token at the front stays when the text some way after it is changed, as long as no lexeme
goes on into what is new. -/
theorem front_cut_of {u v s r : Text} {kind : TokenKind}
    (h : front (u ++ (v ++ s)) = some (kind, u, v ++ s))
    (hr : ∀ w m, r = w ++ m → w ≠ [] → ¬ Spelled Spelling.plainClasses (u ++ (v ++ w))) :
    front (u ++ (v ++ r)) = some (kind, u, v ++ r) := by
  obtain ⟨k, ⟨-, first, longest⟩, rfl⟩ := front_eq_some_iff.1 h
  refine front_eq_some_iff.2 ⟨k, ⟨rfl, first, fun w m he hw => ?_⟩, rfl⟩
  rw [← List.append_assoc] at he
  rcases List.append_eq_append_iff.1 he with ⟨z, rfl, hz⟩ | ⟨z, hz, rfl⟩
  · by_cases hn : z = []
    · subst hn
      exact longest _ s (by simp) hw
    · rw [List.append_assoc] at hw
      exact absurd hw (hr z m hz hn)
  · exact longest w (z ++ s) (by rw [← List.append_assoc, hz, List.append_assoc]) hw

/-! ### Blanks -/

theorem isBlank_of_isWord {c : Char} (h : isWord c = true) : isBlank c = false := by
  cases hb : isBlank c with
  | false => rfl
  | true =>
    have := not_continuesWord_of_isBlank hb
    rw [continuesWord_of_isWord h] at this
    cases this

/-- The characters of numerals. -/
theorem mem_of_spells_number {t : Text} (h : Spelling.number.Spells t) :
    ∀ c ∈ t, isDigit c = true ∨ c ∈ ['.', 'e', 'E', '+', '-'] := by
  obtain ⟨b, x, rfl, hb, hx⟩ := spells_number_iff.1 h
  have body : ∀ c ∈ b, isDigit c = true ∨ c ∈ ['.', 'e', 'E', '+', '-'] := by
    rcases hb with ⟨d, f, rfl, hd, hf, -⟩ | ⟨-, hd⟩
    · simp only [List.mem_append, List.mem_cons]
      rintro c (hc | rfl | hc)
      · exact .inl (hd c hc)
      · exact .inr (.inl rfl)
      · exact .inl (hf c hc)
    · exact fun c hc => .inl (hd c hc)
  intro c hc
  rcases List.mem_append.1 hc with hc | hc
  · exact body c hc
  · rcases hx with rfl | ⟨e, s, ds, rfl, he, hs, -, hd⟩
    · cases hc
    · rcases List.mem_cons.1 hc with rfl | hc
      · rcases (by simpa [Number.Numeral.isExponentMark] using he : c = 'e' ∨ c = 'E') with
          rfl | rfl <;> simp
      · rcases List.mem_append.1 hc with hc | hc
        · rcases hs with rfl | ⟨g, rfl, hg⟩
          · cases hc
          · obtain rfl := List.mem_singleton.1 hc
            rcases (by simpa [Number.Numeral.isSign] using hg : c = '+' ∨ c = '-') with
              rfl | rfl <;> simp
        · exact .inl (hd c hc)

/-- The characters of names. -/
theorem mem_of_spells_identifier {t : Text} (h : Spelling.identifier.Spells t) :
    ∀ c ∈ t, continuesWord c = true := by
  obtain ⟨a, b, rfl, -, ha, hb⟩ := spells_identifier_iff.1 h
  intro c hc
  rcases List.mem_append.1 hc with hc | hc
  · exact continuesWord_of_startsName (ha c hc)
  · exact continuesWord_of_isWord (hb c hc)

/-- Only strings have blanks or quotes in them. -/
theorem not_mem_of_spells {p : TokenKind × Pattern} (hp : p ∈ Spelling.plainClasses)
    (hs : p.2 ≠ Spelling.string) {u : Text} (hu : p.2.Spells u) :
    ∀ c ∈ u, isBlank c = false ∧ c ≠ '"' := by
  simp only [Spelling.plainClasses, List.mem_cons, List.not_mem_nil, or_false] at hp
  intro c hc
  rcases hp with rfl | rfl | rfl | rfl
  · rcases mem_of_spells_number hu c hc with hd | hm
    · refine ⟨isBlank_of_isWord (Text.isWord_of_isDigit hd), ?_⟩
      rintro rfl
      exact absurd hd (by decide)
    · have marks : ∀ c ∈ ['.', 'e', 'E', '+', '-'], isBlank c = false ∧ c ≠ '"' :=
        List.all_iff_forall_prop.1 (by decide)
      exact marks c hm
  · have word := mem_of_spells_identifier hu c hc
    refine ⟨?_, by rintro rfl; exact absurd word (by decide)⟩
    cases hb : isBlank c with
    | false => rfl
    | true => exact absurd (word.symm.trans (not_continuesWord_of_isBlank hb)) (by decide)
  · exact absurd rfl hs
  · have symbols : ∀ c ∈ symbols.flatten, isBlank c = false ∧ c ≠ '"' :=
      List.all_iff_forall_prop.1 (by decide)
    exact symbols c (List.mem_flatten.2 ⟨u, Spelling.spells_anyOf_iff.1 hu, hc⟩)

theorem ne_nil_of_spelled {u : Text} (h : Spelled Spelling.plainClasses u) : u ≠ [] := by
  rintro rfl
  obtain ⟨p, hp, hu⟩ := h
  have empty {reader : Reader} (hf : Finds p.2 reader) (ht : reader.Takes) : False := by
    obtain ⟨⟨v, s⟩, hv⟩ := Option.isSome_iff_exists.1 (hf.isSome [] hu)
    have := (hf.spells hv).1
    exact ht.ne_nil hv (List.append_eq_nil_iff.1 this.symm).1
  simp only [Spelling.plainClasses, List.mem_cons, List.not_mem_nil, or_false] at hp
  rcases hp with rfl | rfl | rfl | rfl
  · exact empty finds_number Number.Numeral.takes_reader
  · exact empty finds_identifier takes_name
  · exact empty finds_string takes_string
  · exact empty finds_symbol takes_symbol

theorem head_of_string {u : Text} (h : Spelling.string.Spells u) : u.head? = some '"' := by
  obtain ⟨w, m, v, hw, hv, -⟩ := Reader.andThen_eq_some_iff.1 (string_append [] h)
  obtain ⟨-, he⟩ := Reader.word_eq_some_iff.1 hw
  rw [List.append_nil] at he
  rw [he]
  rfl

/-- No string is the front of a longer lexeme. -/
theorem not_spelled_of_string {u w : Text} (h : Spelling.string.Spells u) (hw : w ≠ []) :
    ¬ Spelled Spelling.plainClasses (u ++ w) := by
  rintro ⟨p, hp, hs⟩
  by_cases hq : p.2 = Spelling.string
  · rw [hq] at hs
    have whole := string_append [] hs
    rw [List.append_assoc, string_append _ h] at whole
    exact hw (List.append_eq_nil_iff.1 (Prod.mk.inj (Option.some.inj whole)).2).1
  · have mem : '"' ∈ u ++ w := List.mem_append_left _ (List.mem_of_mem_head? (head_of_string h))
    exact (not_mem_of_spells hp hq hs _ mem).2 rfl

/-- No lexeme goes on past another into a blank. -/
theorem not_spelled_of_blank {u v : Text} (hu : Spelled Spelling.plainClasses u) {c : Char}
    (hc : isBlank c = true) (w : Text) : ¬ Spelled Spelling.plainClasses (u ++ (v ++ c :: w)) := by
  obtain ⟨p, hp, h⟩ := id hu
  by_cases hs : p.2 = Spelling.string
  · rw [hs] at h
    exact not_spelled_of_string h (by simp)
  · rintro ⟨q, hq, k⟩
    by_cases ht : q.2 = Spelling.string
    · -- a string starts with a quote, and so would the first lexeme
      rw [ht] at k
      have head := head_of_string k
      cases u with
      | nil => exact ne_nil_of_spelled hu rfl
      | cons d u =>
        have quote : d = '"' := Option.some.inj head
        exact (not_mem_of_spells hp hs h d List.mem_cons_self).2 quote
    · have blank := (not_mem_of_spells hq ht k c (by simp)).1
      rw [hc] at blank
      cases blank

/-- The first character of a lexeme is no blank, and a stroke is a lexeme of its own. -/
theorem head_of_spelled {c : Char} {w : Text} (h : Spelled Spelling.plainClasses (c :: w)) :
    isBlank c = false ∧ (c = '/' → w = []) := by
  obtain ⟨p, hp, hs⟩ := h
  by_cases hq : p.2 = Spelling.string
  · rw [hq] at hs
    obtain rfl : c = '"' := Option.some.inj (head_of_string hs)
    exact ⟨by decide, fun h => absurd h (by decide)⟩
  · refine ⟨(not_mem_of_spells hp hq hs c List.mem_cons_self).1, ?_⟩
    rintro rfl
    simp only [Spelling.plainClasses, List.mem_cons, List.not_mem_nil, or_false] at hp
    rcases hp with rfl | rfl | rfl | rfl
    · rcases mem_of_spells_number hs _ List.mem_cons_self with h | h
      · exact absurd h (by decide)
      · exact absurd h (by decide)
    · exact absurd (mem_of_spells_identifier hs _ List.mem_cons_self) (by decide)
    · exact absurd rfl hq
    · have strokes : ∀ v ∈ symbols, v.head? = some '/' → v.tail = [] := by decide
      exact strokes _ (Spelling.spells_anyOf_iff.1 hs) rfl

/-- The text is empty or starts with a blank. -/
def Parts (r : Text) : Prop := ∀ c w, r = c :: w → isBlank c = true

theorem parts_newline (x : Text) : Parts ('\n' :: x) := fun c w h => by
  rw [← (List.cons.inj h).1]
  decide

/-- The token at the front stays when the text some way after it is cut off, or replaced by one
that starts with a blank. -/
theorem front_cut {u v s r : Text} {kind : TokenKind}
    (h : front (u ++ (v ++ s)) = some (kind, u, v ++ s)) (hr : Parts r) :
    front (u ++ (v ++ r)) = some (kind, u, v ++ r) := by
  obtain ⟨k, best, -⟩ := front_eq_some_iff.1 h
  refine front_cut_of h fun w m he hn => ?_
  cases w with
  | nil => exact absurd rfl hn
  | cons c w => exact not_spelled_of_blank best.2.1.spelled (hr c (w ++ m) he) w

/-! ### Tokens at the front of a text -/

/-- The text `u ++ r` starts with the token, or with the reference to a file. -/
inductive Begins (kind : TokenKind) (u r : Text) : Prop where
  | plain (h : front (u ++ r) = some (kind, u, r))
  | useFile (h : useFile (u ++ r) = some (u, r)) (hk : kind = .useFile)
  | includeFile (h : includeFile (u ++ r) = some (u, r)) (hk : kind = .includeFile)

/-- A reference needs no more of the text than itself. -/
theorem reference_cut {w u s : Text} (h : reference w (u ++ s) = some (u, s)) (r : Text) :
    reference w (u ++ r) = some (u, r) := by
  obtain ⟨b, p, hu, -, hb, hp⟩ := reference_eq_some_iff.1 h
  exact reference_eq_some_iff.2 ⟨b, p, hu, rfl, hb, hp⟩

/-- A token stays the token when the text some way after it is cut off, or replaced by one that
starts with a blank. -/
theorem Begins.cut {kind : TokenKind} {u v s r : Text} (h : Begins kind u (v ++ s)) (hr : Parts r) :
    Begins kind u (v ++ r) := by
  cases h with
  | plain h => exact .plain (front_cut h hr)
  | useFile h hk => exact .useFile (reference_cut h _) hk
  | includeFile h hk => exact .includeFile (reference_cut h _) hk

/-- A token has a character, the first is no blank, and a stroke is a token of its own. -/
theorem Begins.head {kind : TokenKind} {u r : Text} (h : Begins kind u r) :
    ∃ c w, u = c :: w ∧ isBlank c = false ∧ (c = '/' → w = []) := by
  cases h with
  | plain h =>
    obtain ⟨k, ⟨-, first, -⟩, -⟩ := front_eq_some_iff.1 h
    cases u with
    | nil => exact absurd rfl (ne_nil_of_spelled first.spelled)
    | cons c w => exact ⟨c, w, rfl, head_of_spelled first.spelled⟩
  | useFile h _ =>
    obtain ⟨b, p, rfl, -⟩ := reference_eq_some_iff.1 h
    exact ⟨'u', _, rfl, by decide, fun h => absurd h (by decide)⟩
  | includeFile h _ =>
    obtain ⟨b, p, rfl, -⟩ := reference_eq_some_iff.1 h
    exact ⟨'i', _, rfl, by decide, fun h => absurd h (by decide)⟩

/-- A token does not start with a line feed. -/
theorem Begins.head_append {kind : TokenKind} {u r : Text} (h : Begins kind u r) (s : Text) :
    (u ++ s).head? ∉ [none, some '\n'] := by
  obtain ⟨c, w, rfl, notBlank, -⟩ := h.head
  have noFeed : c ≠ '\n' := by
    rintro rfl
    exact absurd notBlank (by decide)
  simpa using noFeed

/-- A token that starts with a character of symbols only is a symbol. -/
theorem Begins.symbol {kind : TokenKind} {u r : Text} (h : Begins kind u r) {c : Char}
    (hc : u.head? = some c) (hs : c ∈ ['*', '/', '=', '!']) : kind = .symbol := by
  obtain ⟨w, rfl⟩ := List.head?_eq_some_iff.1 hc
  have other : isDigit c = false ∧ startsName c = false ∧ c ≠ '"' ∧ c ≠ '.' := by
    simp only [List.mem_cons, List.not_mem_nil, or_false] at hs
    rcases hs with rfl | rfl | rfl | rfl <;> decide
  obtain ⟨hd, hn, hq, hp⟩ := other
  have letters : 'u' ≠ c ∧ 'i' ≠ c := by
    simp only [List.mem_cons, List.not_mem_nil, or_false] at hs
    rcases hs with rfl | rfl | rfl | rfl <;> decide
  cases h with
  | plain h =>
    rw [List.cons_append, front_of_other hd hn hq fun h => absurd h hp] at h
    obtain ⟨o, -, he⟩ := Option.map_eq_some_iff.1 h
    exact (Prod.mk.inj he).1.symm
  | useFile h _ =>
    obtain ⟨b, p, he, -⟩ := reference_eq_some_iff.1 h
    exact absurd (List.cons.inj he).1.symm letters.1
  | includeFile h _ =>
    obtain ⟨b, p, he, -⟩ := reference_eq_some_iff.1 h
    exact absurd (List.cons.inj he).1.symm letters.2

end SolidScript.Lexeme
