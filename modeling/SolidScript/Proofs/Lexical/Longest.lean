import Mathlib.Data.List.Forall2
import SolidScript.Proofs.Lexical.Front
import SolidScript.Token.Spelling

/-!
# Lexical — the longest lexeme

The reader of a class finds the longest text of the class at the front of a text (`Finds`).  Of
several classes the longest lexeme is found, and the first class that has it (`Best`): what is
found depends on the spelled fronts of a text and on nothing else.

* `finds_number`, `finds_identifier`, `finds_string`, `finds_reference`, `finds_symbol`: every class
  is read that way.
* `best_longestAmong`: so are several classes together.
-/

namespace SolidScript

/-- The reader finds the longest text of the pattern at the front of a text. -/
structure Finds (p : Pattern) (reader : Reader) : Prop where
  spells : ∀ {t u r : Text}, reader t = some (u, r) → t = u ++ r ∧ p.Spells u
  reaches : ∀ {u : Text} (r : Text), p.Spells u →
    ∃ v s, reader (u ++ r) = some (v, s) ∧ u.length ≤ v.length

/-- A reader reads something wherever a text of its pattern is. -/
theorem Finds.isSome {p : Pattern} {reader : Reader} (h : Finds p reader) {u : Text} (r : Text)
    (hu : p.Spells u) : (reader (u ++ r)).isSome := by
  obtain ⟨v, s, hv, -⟩ := h.reaches r hu
  rw [hv]
  rfl

namespace Lexeme
open Number.Numeral (digits exponentPart isExponentMark isSign pointed pointFirst)
open Pattern
open Reader
open Text (isDigit isWord)

/-! ### Numerals -/

theorem spells_plus_one_iff {p : Char → Bool} {t : Text} :
    (plus (Pattern.one p)).Spells t ↔ t ≠ [] ∧ ∀ c ∈ t, p c = true := by
  rw [plus, spells_seq_iff]
  constructor
  · rintro ⟨u, v, rfl, hu, hv⟩
    cases hu with
    | one hc =>
      refine ⟨by simp, fun d hd => ?_⟩
      rcases List.mem_cons.1 hd with rfl | hd
      · exact hc
      · exact spells_star_one_iff.1 hv d hd
  · rintro ⟨hn, h⟩
    cases t with
    | nil => exact absurd rfl hn
    | cons c t =>
      exact ⟨[c], t, rfl, .one (h c List.mem_cons_self),
        spells_star_one_iff.2 fun d hd => h d (.tail _ hd)⟩

theorem spells_one_iff {p : Char → Bool} {t : Text} :
    (Pattern.one p).Spells t ↔ ∃ c, t = [c] ∧ p c = true := by
  constructor
  · intro h
    cases h with
    | one hc => exact ⟨_, rfl, hc⟩
  · rintro ⟨c, rfl, hc⟩
    exact .one hc

/-- The pattern of digits is that of digit sequences. -/
theorem spells_digits_iff {t : Text} : Spelling.digits.Spells t ↔ IsDigits t :=
  spells_plus_one_iff

/-- The pattern of exponents is that of the parts after the mark. -/
theorem spells_exponent_iff {t : Text} : Spelling.exponent.Spells t ↔ IsExponent t := by
  simp only [Spelling.exponent, Pattern.sequence, spells_seq_iff, spells_maybe_iff, spells_one_iff,
    spells_digits_iff]
  constructor
  · rintro ⟨_, _, rfl, ⟨c, rfl, hc⟩, s, ds, rfl, hs, hn, hd⟩
    exact ⟨c, s, ds, rfl, hc, hs.symm, hn, hd⟩
  · rintro ⟨c, s, ds, rfl, hc, hs, hn, hd⟩
    exact ⟨[c], s ++ ds, rfl, ⟨c, rfl, hc⟩, s, ds, rfl, hs.symm, hn, hd⟩

/-- A number has a point or is digits, and perhaps an exponent behind it. -/
theorem spells_number_iff {t : Text} :
    Spelling.number.Spells t ↔
      ∃ b x, t = b ++ x ∧ (IsPointed b ∨ IsDigits b) ∧ (x = [] ∨ IsExponent x) := by
  have body (b : Text) :
      (either (sequence [Spelling.digits, exactly ['.'], star (Pattern.one isDigit)])
        (either (seq (exactly ['.']) Spelling.digits) Spelling.digits)).Spells b ↔
        IsPointed b ∨ IsDigits b := by
    simp only [Pattern.sequence, spells_either_iff, spells_seq_iff, spells_exactly_iff,
      spells_digits_iff, spells_star_one_iff]
    constructor
    · rintro (⟨d, _, rfl, ⟨hn, hd⟩, _, f, rfl, rfl, hf⟩ | ⟨_, f, rfl, rfl, hn, hf⟩ | h)
      · exact .inl ⟨d, f, rfl, hd, hf, .inl hn⟩
      · exact .inl ⟨[], f, rfl, by simp, hf, .inr hn⟩
      · exact .inr h
    · rintro (⟨d, f, rfl, hd, hf, hn⟩ | h)
      · by_cases hdn : d = []
        · subst hdn
          exact .inr (.inl ⟨['.'], f, rfl, rfl, hn.resolve_left (by simp), hf⟩)
        · exact .inl ⟨d, '.' :: f, rfl, ⟨hdn, hd⟩, ['.'], f, rfl, rfl, hf⟩
      · exact .inr (.inr h)
  rw [Spelling.number, spells_seq_iff]
  simp only [body, spells_maybe_iff, spells_exponent_iff, or_comm]

/-- A run of a class goes on at least as long as the characters of the class that it starts with. -/
theorem some1_reaches {p : Char → Bool} {u : Text} (r : Text) (hn : u ≠ [])
    (hu : ∀ c ∈ u, p c = true) :
    ∃ v s, r = v ++ s ∧ some1 p (u ++ r) = some (u ++ v, s) := by
  obtain ⟨v, s, rfl, hv, hs⟩ := exists_run p r
  refine ⟨v, s, rfl, ?_⟩
  rw [← List.append_assoc]
  refine some1_append (by simp [hn]) (fun c hc => ?_) hs
  exact (List.mem_append.1 hc).elim (hu c) (hv c)

/-- An exponent that is there is read to its end at least. -/
theorem exponentPart_reaches {x : Text} (r : Text) (hx : IsExponent x) :
    ∃ v s, exponentPart (x ++ r) = some (v, s) ∧ x.length ≤ v.length := by
  obtain ⟨c, s, ds, rfl, hc, hs, hn, hd⟩ := hx
  obtain ⟨v, r, rfl, hv, hr⟩ := exists_run isDigit r
  have longer : IsExponent (c :: (s ++ (ds ++ v))) :=
    ⟨c, s, ds ++ v, rfl, hc, hs, by simp [hn], fun d hm => (List.mem_append.1 hm).elim (hd d) (hv d)⟩
  have read := exponentPart_append longer hr
  exact ⟨_, r, by simpa using read, by simp⟩

theorem optional_exponentPart_reaches {x : Text} (r : Text) (hx : x = [] ∨ IsExponent x) :
    ∃ v s, Reader.optional exponentPart (x ++ r) = some (v, s) ∧ x.length ≤ v.length := by
  unfold Reader.optional orElse
  rcases hx with rfl | hx
  · cases exponentPart ([] ++ r) with
    | none => exact ⟨[], _, rfl, Nat.le_refl _⟩
    | some o => exact ⟨o.1, o.2, rfl, Nat.zero_le _⟩
  · obtain ⟨v, s, hv, hl⟩ := exponentPart_reaches r hx
    exact ⟨v, s, by rw [hv], hl⟩

/-- Digits and a point do not go on into an exponent. -/
theorem stops_isDigit_exponent {x : Text} (hx : IsExponent x) (r : Text) :
    stops isDigit (x ++ r) = true := by
  obtain ⟨c, s, ds, rfl, hc, -⟩ := hx
  simp [stops, not_isDigit_of_isExponentMark hc]

/-- A number with a point is read to the end of its digits. -/
theorem pointed_reaches {b : Text} (t : Text) (hb : IsPointed b) :
    ∃ f s, t = f ++ s ∧ (∀ c ∈ f, isDigit c = true) ∧ stops isDigit s = true ∧
      orElse pointed (orElse pointFirst digits) (b ++ t) = some (b ++ f, s) := by
  obtain ⟨d, e, rfl, hd, he, hn⟩ := hb
  obtain ⟨f, s, rfl, hf, hs⟩ := exists_run isDigit t
  have point (r : Text) : stops isDigit ('.' :: r) = true := by simp only [stops]; decide
  have all : ∀ c ∈ e ++ f, isDigit c = true := fun c hc => (List.mem_append.1 hc).elim (he c) (hf c)
  have rest : Reader.all isDigit (e ++ (f ++ s)) = some (e ++ f, s) := by
    rw [← List.append_assoc]
    exact all_append all hs
  refine ⟨f, s, rfl, hf, hs, ?_⟩
  by_cases hdn : d = []
  · subst hdn
    have noDigits : digits ('.' :: (e ++ (f ++ s))) = none := some1_of_stops (point _)
    have run : digits (e ++ (f ++ s)) = some (e ++ f, s) := by
      rw [← List.append_assoc]
      exact some1_append (by simp [hn.resolve_left (by simp)]) all hs
    simp [orElse, pointed, pointFirst, andThen, noDigits, word, run]
  · have run : digits (d ++ '.' :: (e ++ (f ++ s))) = some (d, '.' :: (e ++ (f ++ s))) :=
      some1_append hdn hd (point _)
    simp [orElse, pointed, andThen, run, word, rest]

/-- Digits that are there are read to their end at least. -/
theorem digits_reaches {b : Text} (t : Text) (hb : IsDigits b) :
    ∃ v s, orElse pointed (orElse pointFirst digits) (b ++ t) = some (v, s) ∧
      b.length ≤ v.length := by
  obtain ⟨f, s, rfl, run⟩ := some1_reaches t hb.1 hb.2
  by_cases hp : s.head? = some '.'
  · obtain ⟨r, rfl⟩ : ∃ r, s = '.' :: r := by
      cases s with
      | nil => cases hp
      | cons c r => exact ⟨r, by rw [Option.some.inj hp]⟩
    obtain ⟨g, m, rfl, hg, hm⟩ := exists_run isDigit r
    have run' : digits (b ++ (f ++ '.' :: (g ++ m))) = some (b ++ f, '.' :: (g ++ m)) := run
    refine ⟨(b ++ f ++ ['.']) ++ g, m, ?_, by simp only [List.length_append]; omega⟩
    simp [orElse, pointed, andThen, run', word, all_append hg hm]
  · obtain ⟨he, hn, hd, hs⟩ := some1_eq_some_iff.1 run
    rw [he]
    refine ⟨b ++ f, s, ?_, by simp⟩
    simp only [orElse, pointed_of_ne_point hn hd hs hp, pointFirst_of_digits hn hd,
      digits_append hn hd hs]

/-- The reader of numerals finds the longest. -/
theorem finds_number : Finds Spelling.number Number.Numeral.reader where
  spells h := by
    obtain ⟨b, x, rfl, hx, hb⟩ := body_of_reader h
    exact ⟨(Number.Numeral.splits_reader.append_eq h).symm, spells_number_iff.2 ⟨b, x, rfl, hb, hx⟩⟩
  reaches r h := by
    obtain ⟨b, x, rfl, hb, hx⟩ := spells_number_iff.1 h
    rw [List.append_assoc]
    -- the body ends where the exponent starts, if there is one, and else perhaps later
    have body : ∃ v s, orElse pointed (orElse pointFirst digits) (b ++ (x ++ r)) = some (v, s) ∧
        b.length ≤ v.length ∧ (IsExponent x → v = b ∧ s = x ++ r) := by
      rcases hb with hb | hb
      · obtain ⟨f, s, he, hf, -, read⟩ := pointed_reaches (x ++ r) hb
        refine ⟨b ++ f, s, read, by simp, fun hx => ?_⟩
        cases f with
        | nil => exact ⟨List.append_nil b, he.symm⟩
        | cons c f =>
          have stop := stops_iff.1 (stops_isDigit_exponent hx r) c (f ++ s) he
          rw [hf c List.mem_cons_self] at stop
          cases stop
      · by_cases hx : IsExponent x
        · have stop := stops_isDigit_exponent hx r
          have hp : (x ++ r).head? ≠ some '.' := by
            obtain ⟨c, s, ds, rfl, hc, -⟩ := hx
            rcases (by simpa [isExponentMark] using hc : c = 'e' ∨ c = 'E') with rfl | rfl <;> simp
          refine ⟨b, x ++ r, ?_, Nat.le_refl _, fun _ => ⟨rfl, rfl⟩⟩
          simp only [orElse, pointed_of_ne_point hb.1 hb.2 stop hp, pointFirst_of_digits hb.1 hb.2,
            digits_append hb.1 hb.2 stop]
        · obtain ⟨v, s, hv, hl⟩ := digits_reaches (x ++ r) hb
          exact ⟨v, s, hv, hl, fun h => absurd h hx⟩
    obtain ⟨v, s, read, hl, exact_⟩ := body
    rcases hx with rfl | hx
    · obtain ⟨w, m, hw, -⟩ := optional_exponentPart_reaches s (.inl rfl)
      refine ⟨v ++ w, m, andThen_eq_some_iff.2 ⟨v, s, w, read, hw, rfl⟩, ?_⟩
      simp only [List.length_append, List.length_nil]
      omega
    · obtain ⟨rfl, rfl⟩ := exact_ hx
      obtain ⟨w, m, hw, hl'⟩ := optional_exponentPart_reaches r (.inr hx)
      refine ⟨v ++ w, m, andThen_eq_some_iff.2 ⟨v, _, w, read, hw, rfl⟩, ?_⟩
      simp only [List.length_append]
      omega

/-! ### Names -/

/-- A name is some characters that names start with, and then parts of words. -/
theorem spells_identifier_iff {t : Text} :
    Spelling.identifier.Spells t ↔
      ∃ a b, t = a ++ b ∧ a ≠ [] ∧ (∀ c ∈ a, startsName c = true) ∧ ∀ c ∈ b, isWord c = true := by
  rw [Spelling.identifier, spells_seq_iff]
  simp only [spells_plus_one_iff, spells_star_one_iff, and_assoc]

/-- The reader of names finds the longest. -/
theorem finds_identifier : Finds Spelling.identifier name where
  spells h := by
    obtain ⟨a, b, rfl, rfl, hn, ha, -, hb, -⟩ := name_eq_some_iff.1 h
    exact ⟨by simp, spells_identifier_iff.2 ⟨a, b, rfl, hn, ha, hb⟩⟩
  reaches r h := by
    obtain ⟨a, b, rfl, hn, ha, hb⟩ := spells_identifier_iff.1 h
    obtain ⟨x, m, hbr, hx, hm⟩ := exists_run startsName (b ++ r)
    obtain ⟨y, s, rfl, hy, hs⟩ := exists_run isWord m
    have read : name (a ++ b ++ r) = some ((a ++ x) ++ y, s) := by
      rw [List.append_assoc, hbr]
      exact name_eq_some_iff.2 ⟨a ++ x, y, rfl, by simp, by simp [hn],
        fun c hc => (List.mem_append.1 hc).elim (ha c) (hx c), hm, hy, hs⟩
    refine ⟨_, s, read, ?_⟩
    -- the characters of a name that start none are word characters
    rcases List.append_eq_append_iff.1 hbr with ⟨z, rfl, -⟩ | ⟨z, rfl, hz⟩
    · simp only [List.length_append]; omega
    · rcases List.append_eq_append_iff.1 hz with ⟨w, rfl, hw⟩ | ⟨w, rfl, hw⟩
      · cases w with
        | nil => simp only [List.length_append, List.length_nil]; omega
        | cons c w =>
          have word := hb c (by simp)
          rw [stops_iff.1 hs c (w ++ r) hw] at word
          cases word
      · simp only [List.length_append]; omega

/-! ### Strings -/

theorem stringRest_cons {c : Char} (quote : c ≠ '"') (stroke : c ≠ '\\') (t : Text) :
    stringRest (c :: t) = (stringRest t).map fun (u, s) => (c :: u, s) :=
  stringRest.eq_5 c t quote (fun h _ => stroke h) (fun _ _ h _ => stroke h)

/-- Pieces of a string are read up to the closing quote. -/
theorem stringRest_append {b : Text} (r : Text) (h : (star Spelling.stringPiece).Spells b) :
    stringRest (b ++ '"' :: r) = some (b ++ ['"'], r) := by
  generalize hs : star Spelling.stringPiece = s at h
  induction h with
  | starNil => rfl
  | starCons h _ _ ih =>
    cases hs
    have rest := ih rfl
    cases h with
    | left h =>
      obtain ⟨c, rfl, hc⟩ := spells_one_iff.1 h
      have hc : c ≠ '"' ∧ c ≠ '\\' := by simpa using hc
      rw [List.cons_append, List.nil_append, List.cons_append, stringRest_cons hc.1 hc.2, rest]
      rfl
    | right h =>
      obtain ⟨_, _, rfl, h, k⟩ := spells_seq_iff.1 h
      obtain rfl := spells_exactly_iff.1 h
      obtain ⟨c, rfl, -⟩ := spells_one_iff.1 k
      simp only [List.cons_append, List.nil_append, stringRest, rest]
      rfl
  | _ => cases hs

/-- What is read of a string is pieces of one and the closing quote. -/
theorem spells_of_stringRest {t u r : Text} (h : stringRest t = some (u, r)) :
    ∃ b, u = b ++ ['"'] ∧ (star Spelling.stringPiece).Spells b := by
  fun_induction stringRest t generalizing u r with
  | case1 => cases h
  | case2 => cases h; exact ⟨[], rfl, .starNil⟩
  | case3 => cases h
  | case4 c s ih =>
    obtain ⟨⟨v, w⟩, hv, he⟩ := Option.map_eq_some_iff.1 h
    cases he
    obtain ⟨b, rfl, hb⟩ := ih hv
    exact ⟨_, rfl, .starCons (.right (.seq (.exactly ['\\']) (.one (c := c) rfl))) hb⟩
  | case5 c s hq hn hb ih =>
    obtain ⟨⟨v, w⟩, hv, he⟩ := Option.map_eq_some_iff.1 h
    cases he
    obtain ⟨b, rfl, hs⟩ := ih hv
    have plain : (c != '"' && c != '\\') = true := by
      have hc : c ≠ '\\' := by
        rintro rfl
        cases s with
        | nil => exact hn rfl rfl
        | cons d s => exact hb d s rfl rfl
      simpa using ⟨hq, hc⟩
    exact ⟨_, rfl, .starCons (.left (.one plain)) hs⟩

/-- A string is read to its end, whatever follows. -/
theorem string_append {u : Text} (r : Text) (h : Spelling.string.Spells u) :
    string (u ++ r) = some (u, r) := by
  obtain ⟨_, _, rfl, open_, k⟩ := spells_seq_iff.1 h
  obtain ⟨b, _, rfl, hb, close⟩ := spells_seq_iff.1 k
  obtain rfl := spells_exactly_iff.1 open_
  obtain rfl := spells_exactly_iff.1 close
  have rest := stringRest_append r hb
  exact andThen_eq_some_iff.2 ⟨['"'], _, _, word_eq_some_iff.2 ⟨rfl, by simp⟩, rest, rfl⟩

/-- The reader of strings finds the longest. -/
theorem finds_string : Finds Spelling.string string where
  spells h := by
    obtain ⟨w, m, v, hw, hv, rfl⟩ := andThen_eq_some_iff.1 h
    obtain ⟨rfl, -⟩ := word_eq_some_iff.1 hw
    obtain ⟨b, rfl, hb⟩ := spells_of_stringRest hv
    exact ⟨(splits_string.append_eq h).symm, .seq (.exactly _) (.seq hb (.exactly _))⟩
  reaches r h := ⟨_, r, string_append r h, Nat.le_refl _⟩

/-! ### References and symbols -/

/-- A reference is its word, blanks, and a path between angles. -/
theorem spells_reference_iff {w t : Text} :
    (Spelling.reference w).Spells t ↔
      ∃ b p, t = w ++ (b ++ '<' :: (p ++ ['>'])) ∧ (∀ c ∈ b, Text.isBlank c = true) ∧ '>' ∉ p := by
  simp only [Spelling.reference, Pattern.sequence, spells_seq_iff, spells_exactly_iff,
    spells_star_one_iff]
  constructor
  · rintro ⟨_, _, rfl, rfl, b, _, rfl, hb, _, _, rfl, rfl, p, _, rfl, hp, rfl⟩
    exact ⟨b, p, rfl, hb, fun hm => by simpa using hp '>' hm⟩
  · rintro ⟨b, p, rfl, hb, hp⟩
    refine ⟨w, _, rfl, rfl, b, _, rfl, hb, ['<'], _, rfl, rfl, p, ['>'], rfl, fun c hc => ?_, rfl⟩
    simpa using (fun he => hp (he ▸ hc) : c ≠ '>')

/-- The reader of references by a word finds the longest. -/
theorem finds_reference (w : Text) : Finds (Spelling.reference w) (reference w) where
  spells h := by
    obtain ⟨b, p, rfl, rfl, hb, hp⟩ := reference_eq_some_iff.1 h
    exact ⟨rfl, spells_reference_iff.2 ⟨b, p, rfl, hb, hp⟩⟩
  reaches r h := by
    obtain ⟨b, p, rfl, hb, hp⟩ := spells_reference_iff.1 h
    exact ⟨_, r, reference_eq_some_iff.2 ⟨b, p, rfl, rfl, hb, hp⟩, Nat.le_refl _⟩

/-- What the first of the readers reads is what one of them reads. -/
theorem firstOf_mem {readers : List Reader} {t : Text} {o : Text × Text}
    (h : firstOf readers t = some o) : ∃ a ∈ readers, a t = some o := by
  induction readers with
  | nil => cases h
  | cons a others ih =>
    unfold firstOf orElse at h
    split at h
    · obtain ⟨b, hb, h⟩ := ih h
      exact ⟨b, .tail _ hb, h⟩
    · rename_i he
      cases h
      exact ⟨a, .head _, he⟩

/-- The reader of symbols finds the longest. -/
theorem finds_symbol : Finds (Spelling.anyOf symbols) symbol where
  spells {t u r} h := by
    refine ⟨(splits_symbol.append_eq h).symm, Spelling.spells_anyOf_iff.2 ?_⟩
    obtain ⟨a, ha, hs⟩ := firstOf_mem h
    obtain ⟨w, hw, rfl⟩ := List.mem_map.1 ha
    obtain ⟨rfl, -⟩ := word_eq_some_iff.1 hs
    exact hw
  reaches {u} r h := by
    have hu := Spelling.spells_anyOf_iff.1 h
    rcases length_of_mem_symbols u hu with hl | hp
    · have read : (symbol (u ++ r)).isSome := by
        refine firstOf_isSome_iff.2 ⟨word u, List.mem_map_of_mem hu, ?_⟩
        rw [word_eq_some_iff.2 ⟨rfl, rfl⟩]
        rfl
      obtain ⟨⟨v, s⟩, hv⟩ := Option.isSome_iff_exists.1 read
      exact ⟨v, s, hv, hl ▸ List.length_pos_iff.2 (takes_symbol.ne_nil hv)⟩
    · obtain ⟨c, d, rfl⟩ : ∃ c d, u = [c, d] :=
        match u, length_of_mem_pairs u hp with
        | [c, d], _ => ⟨c, d, rfl⟩
      exact ⟨_, r, symbol_of_pair r hp, Nat.le_refl _⟩

end Lexeme

/-! ### Several classes -/

namespace Spelling
open Token (Found longer longestAmong)

/-- The text belongs to one of the classes. -/
def Spelled (ps : List (TokenKind × Pattern)) (u : Text) : Prop := ∃ p ∈ ps, p.2.Spells u

/-- The first of the classes that the text belongs to. -/
def IsFirst (ps : List (TokenKind × Pattern)) (kind : TokenKind) (u : Text) : Prop :=
  ∃ before p after, ps = before ++ (kind, p) :: after ∧ p.Spells u ∧ ¬ Spelled before u

/-- The longest text of one of the classes at the front of a text, and the first class that has it;
none if no front belongs to any. -/
def Best (ps : List (TokenKind × Pattern)) (t : Text) : Option Found → Prop
  | none           => ∀ u r, t = u ++ r → ¬ Spelled ps u
  | some (k, u, r) =>
    t = u ++ r ∧ IsFirst ps k u ∧ ∀ v s, t = v ++ s → Spelled ps v → v.length ≤ u.length

/-- A text belongs to one of the classes of two lists if it belongs to one of either. -/
theorem spelled_append {ps qs : List (TokenKind × Pattern)} {u : Text} :
    Spelled (ps ++ qs) u ↔ Spelled ps u ∨ Spelled qs u := by
  simp only [Spelled, List.mem_append, or_and_right, exists_or]

theorem spelled_singleton {q : TokenKind × Pattern} {u : Text} : Spelled [q] u ↔ q.2.Spells u := by
  simp [Spelled]

/-- A text with a first class belongs to one. -/
theorem IsFirst.spelled {ps : List (TokenKind × Pattern)} {k : TokenKind} {u : Text}
    (h : IsFirst ps k u) : Spelled ps u := by
  obtain ⟨before, p, after, rfl, hp, -⟩ := h
  exact ⟨(k, p), by simp, hp⟩

/-- Further classes do not change the first. -/
theorem IsFirst.append {ps : List (TokenKind × Pattern)} {k : TokenKind} {u : Text}
    (h : IsFirst ps k u) (qs : List (TokenKind × Pattern)) : IsFirst (ps ++ qs) k u := by
  obtain ⟨before, p, after, rfl, hp, hb⟩ := h
  exact ⟨before, p, after ++ qs, by simp, hp, hb⟩

/-- A text has one first class. -/
theorem IsFirst.unique {ps : List (TokenKind × Pattern)} {k l : TokenKind} {u : Text}
    (h : IsFirst ps k u) (h' : IsFirst ps l u) : k = l := by
  obtain ⟨before, p, after, rfl, hp, hb⟩ := h
  obtain ⟨before', q, after', he, hq, hb'⟩ := h'
  rcases List.append_eq_append_iff.1 he with ⟨z, rfl, hz⟩ | ⟨z, rfl, hz⟩
  · cases z with
    | nil => exact (Prod.mk.inj (List.cons.inj hz).1).1
    | cons c z =>
      obtain rfl := (List.cons.inj hz).1
      exact absurd ⟨(k, p), by simp, hp⟩ hb'
  · cases z with
    | nil => exact (Prod.mk.inj (List.cons.inj hz).1).1.symm
    | cons c z =>
      obtain rfl := (List.cons.inj hz).1
      exact absurd ⟨(l, q), by simp, hq⟩ hb

/-- What is found depends on the texts of the classes at the front of the text only. -/
theorem Best.unique {ps : List (TokenKind × Pattern)} {t : Text} {a b : Option Found}
    (ha : Best ps t a) (hb : Best ps t b) : a = b := by
  rcases a with _ | ⟨k, u, r⟩ <;> rcases b with _ | ⟨l, v, s⟩
  · rfl
  · exact absurd hb.2.1.spelled (ha _ _ hb.1)
  · exact absurd ha.2.1.spelled (hb _ _ ha.1)
  · obtain ⟨rfl, hk, hu⟩ := ha
    obtain ⟨he, hl, hv⟩ := hb
    have length := Nat.le_antisymm (hv _ _ rfl hk.spelled) (hu _ _ he hl.spelled)
    obtain ⟨rfl, rfl⟩ := List.append_inj he length
    rw [hk.unique hl]

/-- One class more. -/
theorem best_longer {ps : List (TokenKind × Pattern)} {t : Text} {found : Option Found}
    (h : Best ps t found) {q : TokenKind × Pattern} {c : TokenKind × Reader} (kind : c.1 = q.1)
    (hc : Finds q.2 c.2) : Best (ps ++ [q]) t (longer t found c) := by
  -- no front of the text that the class has is longer than what its reader takes
  have reach {v s : Text} (he : t = v ++ s) (hv : q.2.Spells v) :
      ∃ u r, c.2 t = some (u, r) ∧ v.length ≤ u.length := by
    rw [he]
    exact hc.reaches s hv
  have only {u : Text} (hq : q.2.Spells u) (hp : ¬ Spelled ps u) : IsFirst (ps ++ [q]) c.1 u :=
    ⟨ps, q.2, [], by rw [kind], hq, hp⟩
  unfold longer
  cases hr : c.2 t with
  | none =>
    have none_of {v s : Text} (he : t = v ++ s) : ¬ q.2.Spells v := fun hv => by
      obtain ⟨u, r, hu, -⟩ := reach he hv
      rw [hr] at hu
      cases hu
    rcases found with _ | ⟨k, u, r⟩
    · intro v s he hv
      rcases spelled_append.1 hv with hv | hv
      · exact h v s he hv
      · exact none_of he (spelled_singleton.1 hv)
    · refine ⟨h.1, h.2.1.append _, fun v s he hv => ?_⟩
      rcases spelled_append.1 hv with hv | hv
      · exact h.2.2 v s he hv
      · exact absurd (spelled_singleton.1 hv) (none_of he)
  | some o =>
    obtain ⟨u, r⟩ := o
    obtain ⟨ht, hu⟩ := hc.spells hr
    have longest {v s : Text} (he : t = v ++ s) (hv : q.2.Spells v) : v.length ≤ u.length := by
      obtain ⟨u', r', hu', hl⟩ := reach he hv
      rw [hr] at hu'
      cases hu'
      exact hl
    rcases found with _ | ⟨k, w, m⟩
    · refine ⟨ht, only hu (h u r ht), fun v s he hv => ?_⟩
      rcases spelled_append.1 hv with hv | hv
      · exact absurd hv (h v s he)
      · exact longest he (spelled_singleton.1 hv)
    · obtain ⟨hw, first, hm⟩ := h
      dsimp only
      split
      · rename_i hlt
        refine ⟨ht, only hu fun hp => Nat.not_le_of_lt hlt (hm u r ht hp), fun v s he hv => ?_⟩
        rcases spelled_append.1 hv with hv | hv
        · exact Nat.le_trans (hm v s he hv) (Nat.le_of_lt hlt)
        · exact longest he (spelled_singleton.1 hv)
      · rename_i hle
        refine ⟨hw, first.append _, fun v s he hv => ?_⟩
        rcases spelled_append.1 hv with hv | hv
        · exact hm v s he hv
        · exact Nat.le_trans (longest he (spelled_singleton.1 hv)) (Nat.not_lt.1 hle)

/-- The longest lexeme among classes that are read so is found. -/
theorem best_longestAmong {cs : List (TokenKind × Reader)} {ps : List (TokenKind × Pattern)}
    (h : List.Forall₂ (fun c p => c.1 = p.1 ∧ Finds p.2 c.2) cs ps) (t : Text) :
    Best ps t (longestAmong cs t) := by
  have step : ∀ (done : List (TokenKind × Pattern)) (found : Option Found), Best done t found →
      Best (done ++ ps) t (cs.foldl (longer t) found) := by
    induction h with
    | nil => exact fun done found hb => by simpa using hb
    | cons h _ ih =>
      intro done found hb
      have := ih _ _ (best_longer hb h.1 h.2)
      simpa using this
  exact step [] none fun _ _ _ ⟨_, hp, _⟩ => by cases hp

/-- The classes of tokens are read so. -/
theorem finds_classes :
    List.Forall₂ (fun c p => c.1 = p.1 ∧ Finds p.2 c.2) Token.classes classes :=
  .cons ⟨rfl, Lexeme.finds_number⟩ (.cons ⟨rfl, Lexeme.finds_identifier⟩
    (.cons ⟨rfl, Lexeme.finds_string⟩ (.cons ⟨rfl, Lexeme.finds_reference _⟩
      (.cons ⟨rfl, Lexeme.finds_reference _⟩ (.cons ⟨rfl, Lexeme.finds_symbol⟩ .nil)))))

/-- The classes that compete for a token, references to files aside. -/
def plainClasses : List (TokenKind × Pattern) :=
  [(.number, number), (.identifier, identifier), (.string, string),
   (.symbol, anyOf Lexeme.symbols)]

/-- The reader of each class finds the longest text of its pattern. -/
theorem finds_plainClasses :
    List.Forall₂ (fun c p => c.1 = p.1 ∧ Finds p.2 c.2) Lexeme.plainClasses plainClasses :=
  .cons ⟨rfl, Lexeme.finds_number⟩ (.cons ⟨rfl, Lexeme.finds_identifier⟩
    (.cons ⟨rfl, Lexeme.finds_string⟩ (.cons ⟨rfl, Lexeme.finds_symbol⟩ .nil)))

end Spelling

end SolidScript
