import SolidScript.Proofs.Lexical.Name

/-!
# Lexical — numerals and names that start with a digit

Where a digit starts a lexeme, a numeral and a name both do, and the longer one is the token; of
two as long it is the numeral.  The terminals find out which by looking ahead: the one for numerals
reads the numeral where it is the token and nothing elsewhere, and `numberAhead` tells the one for
names (`number_or_name`).
-/

namespace SolidScript.Lexeme
open Number.Numeral (digits exponentPart isExponentMark isSign pointed pointFirst)
open Terminal (numberAhead numberReader plainNumber pointNumber signedExponent)
open Reader
open Text (isDigit isWord)

/-- An exponent with a sign. -/
def signedPart : Reader := .andThen (.one isExponentMark) (.andThen (.one isSign) digits)

/-- An exponent without a sign. -/
def unsignedPart : Reader := .andThen (.one isExponentMark) digits

/-! ### Exponents -/

theorem not_isDigit_of_isSign {c : Char} (h : isSign c = true) : isDigit c = false := by
  rcases (by simpa [isSign] using h : c = '+' ∨ c = '-') with rfl | rfl <;> decide

/-- The mark of an exponent starts names. -/
theorem startsName_of_isExponentMark {c : Char} (h : isExponentMark c = true) :
    startsName c = true := by
  rcases (by simpa [isExponentMark] using h : c = 'e' ∨ c = 'E') with rfl | rfl <;> decide

theorem not_isDigit_of_isExponentMark {c : Char} (h : isExponentMark c = true) :
    isDigit c = false := by
  rcases (by simpa [isExponentMark] using h : c = 'e' ∨ c = 'E') with rfl | rfl <;> decide

/-- An exponent has a sign or has none. -/
theorem exponentPart_eq (t : Text) :
    exponentPart t = orElse signedPart unsignedPart t := by
  cases t with
  | nil => rfl
  | cons c t =>
    cases hc : isExponentMark c with
    | false => simp [exponentPart, signedPart, unsignedPart, orElse, andThen, one, hc]
    | true =>
      cases t with
      | nil =>
        have none_left : digits [] = none := rfl
        simp [exponentPart, signedPart, unsignedPart, orElse, andThen, one, hc, Reader.optional,
          none_left]
      | cons d t =>
        cases hd : isSign d with
        | false =>
          cases ht : digits (d :: t) <;>
            simp [exponentPart, signedPart, unsignedPart, orElse, andThen, one, hc,
              Reader.optional, hd, ht]
        | true =>
          have digit : digits (d :: t) = none :=
            some1_of_stops (by simp [stops, not_isDigit_of_isSign hd])
          cases ht : digits t with
          | none =>
            simp [exponentPart, signedPart, unsignedPart, orElse, andThen, one, hc,
              Reader.optional, hd, ht, digit]
          | some o =>
            simp [exponentPart, signedPart, orElse, andThen, one, hc, Reader.optional, hd, ht]

/-- One digit after the sign tells an exponent. -/
theorem signedPart_isSome (t : Text) :
    (andThen (one isExponentMark) (andThen (one isSign) (one isDigit)) t).isSome =
      (signedPart t).isSome := by
  rcases t with _ | ⟨c, _ | ⟨d, _ | ⟨e, t⟩⟩⟩
  · rfl
  · cases hc : isExponentMark c <;> simp [signedPart, andThen, one, hc]
  · cases hc : isExponentMark c <;> cases hd : isSign d <;>
      simp [signedPart, andThen, one, hc, hd, digits, some1]
  · cases hc : isExponentMark c <;> cases hd : isSign d <;> cases he : isDigit e <;>
      simp [signedPart, andThen, one, hc, hd, he, digits, some1, all]

/-- What `signedPart` reads is the mark, the sign and digits. -/
theorem signedPart_eq_some {t u r : Text} (h : signedPart t = some (u, r)) :
    ∃ c d x, u = c :: d :: x ∧ t = c :: d :: (x ++ r) ∧ isExponentMark c = true ∧
      isSign d = true := by
  obtain ⟨a, s, b, ha, hb, rfl⟩ := andThen_eq_some_iff.1 h
  obtain ⟨d, s', x, hd, hx, rfl⟩ := andThen_eq_some_iff.1 hb
  cases t with
  | nil => cases ha
  | cons c t =>
    obtain ⟨hc, rfl, rfl⟩ : isExponentMark c = true ∧ [c] = a ∧ t = s := by
      simpa [one] using ha
    cases t with
    | nil => cases hd
    | cons e t =>
      obtain ⟨he, rfl, rfl⟩ : isSign e = true ∧ [e] = d ∧ t = s' := by simpa [one] using hd
      obtain ⟨rfl, -, -, -⟩ := some1_eq_some_iff.1 hx
      exact ⟨c, e, x, rfl, rfl, hc, he⟩

/-- What `unsignedPart` reads are characters that names start with. -/
theorem unsignedPart_eq_some {t u r : Text} (h : unsignedPart t = some (u, r)) :
    t = u ++ r ∧ ∀ c ∈ u, startsName c = true := by
  obtain ⟨a, s, x, ha, hx, rfl⟩ := andThen_eq_some_iff.1 h
  cases t with
  | nil => cases ha
  | cons c t =>
    obtain ⟨hc, rfl, rfl⟩ : isExponentMark c = true ∧ [c] = a ∧ t = s := by
      simpa [one] using ha
    obtain ⟨rfl, -, hd, -⟩ := some1_eq_some_iff.1 hx
    refine ⟨rfl, fun d hd' => ?_⟩
    rcases List.mem_append.1 hd' with hd' | hd'
    · rw [List.mem_singleton.1 hd']
      exact startsName_of_isExponentMark hc
    · exact startsName_of_isDigit (hd d hd')

/-! ### Numerals with a point -/

/-- Both readers read a numeral with a point the same way. -/
theorem numberReader_of_point {t u r : Text} (h : orElse pointed pointFirst t = some (u, r)) :
    ∃ v s, Number.Numeral.reader t = some (v, s) ∧ numberReader t = some (v, s) ∧
      u.length ≤ v.length := by
  obtain ⟨w, s, hw⟩ : ∃ w s, Reader.optional exponentPart r = some (w, s) := by
    unfold Reader.optional orElse
    cases exponentPart r with
    | none => exact ⟨_, _, rfl⟩
    | some o => exact ⟨o.1, o.2, rfl⟩
  refine ⟨u ++ w, s, ?_, ?_, by simp⟩
  · have point : orElse pointed (orElse pointFirst digits) t = some (u, r) := by
      unfold orElse at h ⊢
      cases hp : pointed t with
      | some o => simpa [hp] using h
      | none => simp only [hp] at h ⊢; rw [h]
    exact andThen_eq_some_iff.2 ⟨u, r, w, point, hw, rfl⟩
  · have point : pointNumber t = some (u ++ w, s) :=
      andThen_eq_some_iff.2 ⟨u, r, w, h, hw, rfl⟩
    simp [numberReader, orElse, point]

/-! ### The longer of the two -/

section Digits
variable {d r : Text}

theorem startsName_of_digits (hds : ∀ c ∈ d, isDigit c = true) : ∀ c ∈ d, startsName c = true :=
  fun c hc => startsName_of_isDigit (hds c hc)

theorem word_point_of_ne (hp : r.head? ≠ some '.') : word ['.'] r = none := by
  cases r with
  | nil => rfl
  | cons c r =>
    have hc : '.' ≠ c := fun he => hp (by rw [he]; rfl)
    simp [word, hc]

variable (hd : d ≠ []) (hds : ∀ c ∈ d, isDigit c = true) (hr : stops isDigit r = true)
include hd hds

theorem pointFirst_of_digits : pointFirst (d ++ r) = none := by
  cases d with
  | nil => exact absurd rfl hd
  | cons c d =>
    have hc : '.' ≠ c := by
      rintro rfl
      have digit := hds '.' List.mem_cons_self
      revert digit
      decide
    simp [pointFirst, andThen, word, hc]

include hr

/-- Digits are read up to where there are no more. -/
theorem digits_append : digits (d ++ r) = some (d, r) := some1_append hd hds hr

/-- With a point after them digits are a numeral. -/
theorem number_of_point (hp : r.head? = some '.') :
    ∃ u s v m, Number.Numeral.reader (d ++ r) = some (u, s) ∧ numberReader (d ++ r) = some (u, s) ∧
      (numberAhead (d ++ r)).isSome ∧ name (d ++ r) = some (v, m) ∧ v.length ≤ u.length := by
  have run := digits_append hd hds hr
  obtain ⟨r, rfl⟩ : ∃ s, r = '.' :: s := by
    cases r with
    | nil => cases hp
    | cons c s => exact ⟨s, by rw [Option.some.inj hp]⟩
  obtain ⟨f, s, rfl, hf, hs⟩ := exists_run isDigit r
  have point : orElse pointed pointFirst (d ++ '.' :: (f ++ s)) = some (d ++ '.' :: f, s) := by
    simp [orElse, pointed, andThen, run, word, all_append hf hs]
  obtain ⟨u, m, hu, hn, hl⟩ := numberReader_of_point point
  refine ⟨u, m, d, _, hu, hn, ?_,
    name_append hd (startsName_of_digits hds) (by simp [stops]; decide), ?_⟩
  · have run' : some1 isDigit (d ++ '.' :: (f ++ s)) = some (d, '.' :: (f ++ s)) := run
    simp [numberAhead, andThen, run', orElse, word]
  · simp only [List.length_append, List.length_cons] at hl
    omega

/-- Digits that no point follows are no number with a point. -/
theorem pointed_of_ne_point (hp : r.head? ≠ some '.') : pointed (d ++ r) = none := by
  simp [pointed, andThen, digits_append hd hds hr, word_point_of_ne hp]

/-- Digits that no point follows are read, and the exponent behind them if there is one. -/
theorem reader_of_ne_point (hp : r.head? ≠ some '.') :
    Number.Numeral.reader (d ++ r) =
      (Reader.optional exponentPart r).map fun (x, s) => (d ++ x, s) := by
  simp only [Number.Numeral.reader, andThen, orElse, pointed_of_ne_point hd hds hr hp,
    pointFirst_of_digits hd hds, digits_append hd hds hr]
  cases Reader.optional exponentPart r <;> rfl

/-- Digits that no point follows are a number with a signed exponent, or one where the word ends. -/
theorem numberReader_of_ne_point (hp : r.head? ≠ some '.') :
    numberReader (d ++ r) = orElse signedExponent plainNumber (d ++ r) := by
  simp [numberReader, orElse, pointNumber, andThen, pointed_of_ne_point hd hds hr hp,
    pointFirst_of_digits hd hds]

/-- Digits before a signed exponent are read with it. -/
theorem signedExponent_append :
    signedExponent (d ++ r) = (signedPart r).map fun (x, s) => (d ++ x, s) :=
  andThen_of_some (digits_append hd hds hr) signedPart

/-- What is looked for ahead: a point, a signed exponent, or the end of the word. -/
theorem numberAhead_append :
    (numberAhead (d ++ r)).isSome =
      ((word ['.'] r).isSome || (signedPart r).isSome ||
        (notBefore (Reader.optional unsignedPart) continuesWord r).isSome) := by
  have run : some1 isDigit (d ++ r) = some (d, r) := digits_append hd hds hr
  have read : numberAhead (d ++ r) = _ := andThen_of_some run (orElse (word ['.']) (orElse
    (andThen (one isExponentMark) (andThen (one isSign) (one isDigit)))
    (notBefore (Reader.optional unsignedPart) continuesWord)))
  rw [← signedPart_isSome, read, Option.isSome_map]
  unfold orElse
  cases word ['.'] r with
  | some o => rfl
  | none =>
    cases andThen (one isExponentMark) (andThen (one isSign) (one isDigit)) r with
    | some o => rfl
    | none => cases notBefore (Reader.optional unsignedPart) continuesWord r <;> rfl

/-- With a signed exponent after them digits are a numeral. -/
theorem number_of_signed (hp : r.head? ≠ some '.') {x s : Text} (hx : signedPart r = some (x, s)) :
    ∃ u s v m, Number.Numeral.reader (d ++ r) = some (u, s) ∧ numberReader (d ++ r) = some (u, s) ∧
      (numberAhead (d ++ r)).isSome ∧ name (d ++ r) = some (v, m) ∧ v.length ≤ u.length := by
  obtain ⟨e, sign, y, rfl, rfl, he, hsign⟩ := signedPart_eq_some hx
  have names : ∀ c ∈ d ++ [e], startsName c = true := by
    intro c hc
    rcases List.mem_append.1 hc with hc | hc
    · exact startsName_of_digits hds c hc
    · rw [List.mem_singleton.1 hc]
      exact startsName_of_isExponentMark he
  have stop : stops continuesWord (sign :: (y ++ s)) = true := by
    rcases (by simpa [isSign] using hsign : sign = '+' ∨ sign = '-') with rfl | rfl <;>
      simp only [stops] <;> decide
  have word : name ((d ++ [e]) ++ sign :: (y ++ s)) = some (d ++ [e], sign :: (y ++ s)) :=
    name_append (by simp) names stop
  refine ⟨d ++ e :: sign :: y, s, d ++ [e], sign :: (y ++ s), ?_, ?_, ?_, by simpa using word,
    by simp⟩
  · rw [reader_of_ne_point hd hds hr hp]
    simp [Reader.optional, orElse, exponentPart_eq, hx]
  · rw [numberReader_of_ne_point hd hds hr hp]
    simp [orElse, signedExponent_append hd hds hr, hx]
  · simp [numberAhead_append hd hds hr, hx]

/-- Digits and their unsigned exponent are a plain numeral where the word ends. -/
theorem plainNumber_append {w s : Text} (hw : Reader.optional unsignedPart r = some (w, s)) :
    plainNumber (d ++ r) = if stops continuesWord s then some (d ++ w, s) else none := by
  have run : some1 isDigit (d ++ r) = some (d, r) := digits_append hd hds hr
  have both : andThen (some1 isDigit) (Reader.optional unsignedPart) (d ++ r) = some (d ++ w, s) :=
    andThen_eq_some_iff.2 ⟨d, r, w, run, hw, rfl⟩
  exact notBefore_of_some both continuesWord

/-- With neither a point nor a sign after the digits the end of the word is looked for. -/
theorem numberAhead_unsigned (hp : r.head? ≠ some '.') (hx : signedPart r = none) {w s : Text}
    (hw : Reader.optional unsignedPart r = some (w, s)) :
    (numberAhead (d ++ r)).isSome = stops continuesWord s := by
  rw [numberAhead_append hd hds hr, word_point_of_ne hp, hx]
  unfold notBefore
  rw [hw]
  cases hs : stops continuesWord s <;> simp [hs]

/-- With neither after them digits are a numeral where the word ends. -/
theorem number_or_name_of_unsigned (hp : r.head? ≠ some '.') (hx : signedPart r = none) :
    (∃ u s v m, Number.Numeral.reader (d ++ r) = some (u, s) ∧
      numberReader (d ++ r) = some (u, s) ∧ (numberAhead (d ++ r)).isSome ∧
      name (d ++ r) = some (v, m) ∧ v.length ≤ u.length) ∨
    ∃ u s v m, Number.Numeral.reader (d ++ r) = some (u, s) ∧ numberReader (d ++ r) = none ∧
      numberAhead (d ++ r) = none ∧ name (d ++ r) = some (v, m) ∧ u.length < v.length := by
  obtain ⟨w, s, hw, hws, rfl⟩ : ∃ w s, Reader.optional unsignedPart r = some (w, s) ∧
      (∀ c ∈ w, startsName c = true) ∧ r = w ++ s := by
    unfold Reader.optional orElse
    cases hu : unsignedPart r with
    | none => exact ⟨[], r, rfl, by simp, rfl⟩
    | some o =>
      have parts := unsignedPart_eq_some hu
      exact ⟨o.1, o.2, rfl, parts.2, parts.1⟩
  have exponent : Reader.optional exponentPart (w ++ s) = some (w, s) := by
    rw [← hw]
    unfold Reader.optional orElse
    rw [exponentPart_eq, orElse, hx]
  have reads : Number.Numeral.reader (d ++ (w ++ s)) = some (d ++ w, s) := by
    rw [reader_of_ne_point hd hds hr hp, exponent]
    rfl
  have number : numberReader (d ++ (w ++ s)) =
      if stops continuesWord s then some (d ++ w, s) else none := by
    rw [numberReader_of_ne_point hd hds hr hp, ← plainNumber_append hd hds hr hw]
    simp [orElse, signedExponent_append hd hds hr, hx]
  have ahead := numberAhead_unsigned hd hds hr hp hx hw
  have names : ∀ c ∈ d ++ w, startsName c = true := by
    intro c hc
    rcases List.mem_append.1 hc with hc | hc
    · exact startsName_of_digits hds c hc
    · exact hws c hc
  have hdw : d ++ w ≠ [] := by simp [hd]
  cases hs : stops continuesWord s with
  | true =>
    refine .inl ⟨d ++ w, s, d ++ w, s, reads, ?_, ?_, ?_, Nat.le_refl _⟩
    · rw [number, hs, if_pos rfl]
    · rw [ahead, hs]
    · rw [← List.append_assoc]
      exact name_append hdw names hs
  | false =>
    obtain ⟨v, m, hv, hl⟩ := name_append_longer hdw names hs
    refine .inr ⟨d ++ w, s, v, m, reads, ?_, ?_, ?_, hl⟩
    · rw [number, hs, if_neg (by decide)]
    · rw [← Option.not_isSome_iff_eq_none, ahead, hs]
      decide
    · rw [← List.append_assoc]
      exact hv

end Digits

/-- Where a digit starts a lexeme the terminals read the longer of the numeral and the name. -/
theorem number_or_name {c : Char} {t : Text} (hc : isDigit c = true) :
    (∃ u s v m, Number.Numeral.reader (c :: t) = some (u, s) ∧
      numberReader (c :: t) = some (u, s) ∧ (numberAhead (c :: t)).isSome ∧
      name (c :: t) = some (v, m) ∧ v.length ≤ u.length) ∨
    ∃ u s v m, Number.Numeral.reader (c :: t) = some (u, s) ∧ numberReader (c :: t) = none ∧
      numberAhead (c :: t) = none ∧ name (c :: t) = some (v, m) ∧ u.length < v.length := by
  obtain ⟨d, r, ht, hds, hr⟩ := exists_run isDigit (c :: t)
  have hd : d ≠ [] := by
    rintro rfl
    rw [List.nil_append] at ht
    rw [stops_iff.1 hr c t ht.symm] at hc
    cases hc
  rw [ht]
  by_cases hp : r.head? = some '.'
  · exact .inl (number_of_point hd hds hr hp)
  · cases hx : signedPart r with
    | some o => exact .inl (number_of_signed hd hds hr hp hx)
    | none => exact number_or_name_of_unsigned hd hds hr hp hx

/-! ### Numerals alone -/

/-- The text is an exponent: its mark, perhaps a sign, and digits. -/
def IsExponent (x : Text) : Prop :=
  ∃ c s ds, x = c :: (s ++ ds) ∧ isExponentMark c = true ∧
    (s = [] ∨ ∃ g, s = [g] ∧ isSign g = true) ∧ ds ≠ [] ∧ ∀ d ∈ ds, isDigit d = true

/-- The text is digits around a point, with one at least on one side. -/
def IsPointed (b : Text) : Prop :=
  ∃ d f, b = d ++ '.' :: f ∧ (∀ c ∈ d, isDigit c = true) ∧ (∀ c ∈ f, isDigit c = true) ∧
    (d ≠ [] ∨ f ≠ [])

/-- The text is digits. -/
def IsDigits (b : Text) : Prop := b ≠ [] ∧ ∀ c ∈ b, isDigit c = true

theorem stops_isDigit_of_continuesWord {r : Text} (h : stops continuesWord r = true) :
    stops isDigit r = true := by
  refine stops_iff.2 fun c s he => ?_
  cases hd : isDigit c with
  | false => rfl
  | true =>
    have word := continuesWord_of_startsName (startsName_of_isDigit hd)
    rw [stops_iff.1 h c s he] at word
    cases word

/-- An exponent is read up to where there are no more digits. -/
theorem exponentPart_append {x r : Text} (hx : IsExponent x) (hr : stops isDigit r = true) :
    exponentPart (x ++ r) = some (x, r) := by
  obtain ⟨c, s, ds, rfl, hc, hs, hn, hds⟩ := hx
  have run : digits (ds ++ r) = some (ds, r) := some1_append hn hds hr
  have sign : Reader.optional (one isSign) ((s ++ ds) ++ r) = some (s, ds ++ r) := by
    rcases hs with rfl | ⟨g, rfl, hg⟩
    · cases ds with
      | nil => exact absurd rfl hn
      | cons d ds =>
        have hd : isSign d = false := by
          cases h : isSign d with
          | false => rfl
          | true =>
            have digit := hds d List.mem_cons_self
            rw [not_isDigit_of_isSign h] at digit
            cases digit
        simp [Reader.optional, orElse, one, hd]
    · simp [Reader.optional, orElse, one, hg]
  exact andThen_eq_some_iff.2 ⟨[c], (s ++ ds) ++ r, s ++ ds, by simp [one, hc],
    andThen_eq_some_iff.2 ⟨s, ds ++ r, ds, sign, run, rfl⟩, rfl⟩

/-- What is read as an exponent is one. -/
theorem isExponent_of_exponentPart {t x r : Text} (h : exponentPart t = some (x, r)) :
    IsExponent x := by
  obtain ⟨a, m, v, ha, hv, rfl⟩ := andThen_eq_some_iff.1 h
  obtain ⟨s, m', ds, hs, hd, rfl⟩ := andThen_eq_some_iff.1 hv
  obtain ⟨-, hn, hds, -⟩ := some1_eq_some_iff.1 hd
  have mark : ∃ c, a = [c] ∧ isExponentMark c = true := by
    cases t with
    | nil => cases ha
    | cons c t =>
      obtain ⟨hc, rfl, -⟩ : isExponentMark c = true ∧ [c] = a ∧ t = m := by simpa [one] using ha
      exact ⟨c, rfl, hc⟩
  have sign : s = [] ∨ ∃ g, s = [g] ∧ isSign g = true := by
    cases m with
    | nil =>
      obtain ⟨rfl, -⟩ : [] = s ∧ _ := by simpa [Reader.optional, orElse, one] using hs
      exact .inl rfl
    | cons g m =>
      cases hg : isSign g with
      | false =>
        obtain ⟨rfl, -⟩ : [] = s ∧ _ := by simpa [Reader.optional, orElse, one, hg] using hs
        exact .inl rfl
      | true =>
        obtain ⟨rfl, -⟩ : [g] = s ∧ _ := by simpa [Reader.optional, orElse, one, hg] using hs
        exact .inr ⟨g, rfl, hg⟩
  obtain ⟨c, rfl, hc⟩ := mark
  exact ⟨c, s, ds, rfl, hc, sign, hn, hds⟩

/-- An exponent that may be there: the text is one, or it is empty and none follows. -/
theorem optional_exponentPart {t x r : Text} (h : Reader.optional exponentPart t = some (x, r)) :
    x = [] ∨ IsExponent x := by
  unfold Reader.optional orElse at h
  cases he : exponentPart t with
  | none => rw [he] at h; cases h; exact .inl rfl
  | some o => rw [he] at h; cases h; exact .inr (isExponent_of_exponentPart he)

/-- An exponent, or none, is read where the word ends. -/
theorem optional_exponentPart_append {x r : Text} (hx : x = [] ∨ IsExponent x)
    (hr : stops continuesWord r = true) :
    Reader.optional exponentPart (x ++ r) = some (x, r) := by
  rcases hx with rfl | hx
  · have none_ahead : exponentPart r = none := by
      cases r with
      | nil => rfl
      | cons c r =>
        have hc : isExponentMark c = false := by
          cases h : isExponentMark c with
          | false => rfl
          | true =>
            have word := continuesWord_of_startsName (startsName_of_isExponentMark h)
            rw [stops_iff.1 hr c r rfl] at word
            cases word
        simp [exponentPart, andThen, one, hc]
    simp [Reader.optional, orElse, none_ahead]
  · simp [Reader.optional, orElse, exponentPart_append hx (stops_isDigit_of_continuesWord hr)]

/-- A numeral is digits around a point, or digits, and perhaps an exponent. -/
theorem body_of_reader {t u r : Text} (h : Number.Numeral.reader t = some (u, r)) :
    ∃ b x, u = b ++ x ∧ (x = [] ∨ IsExponent x) ∧ (IsPointed b ∨ IsDigits b) := by
  obtain ⟨b, m, x, hb, hx, rfl⟩ := andThen_eq_some_iff.1 h
  refine ⟨b, x, rfl, optional_exponentPart hx, ?_⟩
  unfold orElse at hb
  cases hp : pointed t with
  | some o =>
    rw [hp] at hb
    cases hb
    obtain ⟨v, m₁, f, hv, hf, rfl⟩ := andThen_eq_some_iff.1 hp
    obtain ⟨d, m₂, w, hd, hw, rfl⟩ := andThen_eq_some_iff.1 hv
    obtain ⟨-, hn, hds, -⟩ := some1_eq_some_iff.1 hd
    obtain ⟨rfl, -⟩ := word_eq_some_iff.1 hw
    obtain ⟨rfl, -⟩ : m₁.takeWhile isDigit = f ∧ _ := by simpa [all] using hf
    exact .inl ⟨d, m₁.takeWhile isDigit, by simp, hds,
      fun c hc => List.all_eq_true.1 List.all_takeWhile c hc, .inl hn⟩
  | none =>
    rw [hp] at hb
    dsimp only at hb
    cases hq : pointFirst t with
    | some o =>
      rw [hq] at hb
      cases hb
      obtain ⟨w, m₁, f, hw, hf, he⟩ := andThen_eq_some_iff.1 hq
      obtain ⟨rfl, -⟩ := word_eq_some_iff.1 hw
      obtain ⟨-, hn, hds, -⟩ := some1_eq_some_iff.1 hf
      exact .inl ⟨[], f, by simpa using he, by simp, hds, .inr hn⟩
    | none =>
      rw [hq] at hb
      obtain ⟨-, hn, hds, -⟩ := some1_eq_some_iff.1 hb
      exact .inr ⟨hn, hds⟩

/-- A numeral is read up to where its word ends, if no point follows its digits. -/
theorem reader_append {b x r : Text} (hb : IsPointed b ∨ IsDigits b)
    (hx : x = [] ∨ IsExponent x) (hr : stops continuesWord r = true)
    (hp : IsDigits b → x = [] → r.head? ≠ some '.') :
    Number.Numeral.reader (b ++ (x ++ r)) = some (b ++ x, r) := by
  have exponent := optional_exponentPart_append hx hr
  have stop : stops isDigit (x ++ r) = true := by
    rcases hx with rfl | ⟨c, s, ds, rfl, hc, -⟩
    · exact stops_isDigit_of_continuesWord hr
    · simp [stops, not_isDigit_of_isExponentMark hc]
  have body : orElse pointed (orElse pointFirst digits) (b ++ (x ++ r)) = some (b, x ++ r) := by
    rcases hb with ⟨d, f, rfl, hd, hf, hn⟩ | ⟨hn, hd⟩
    · have point : stops isDigit ('.' :: (f ++ (x ++ r))) = true := by simp only [stops]; decide
      by_cases hdn : d = []
      · subst hdn
        have noDigits : digits ('.' :: (f ++ (x ++ r))) = none := some1_of_stops point
        have run : digits (f ++ (x ++ r)) = some (f, x ++ r) :=
          some1_append (hn.resolve_left (by simp)) hf stop
        simp [orElse, pointed, pointFirst, andThen, noDigits, word, run]
      · have run : digits (d ++ '.' :: (f ++ (x ++ r))) = some (d, '.' :: (f ++ (x ++ r))) :=
          some1_append hdn hd point
        simp [orElse, pointed, andThen, run, word, all_append hf stop]
    · have hpoint : (x ++ r).head? ≠ some '.' := by
        rcases hx with rfl | ⟨c, s, ds, rfl, hc, -⟩
        · exact hp ⟨hn, hd⟩ rfl
        · rcases (by simpa [isExponentMark] using hc : c = 'e' ∨ c = 'E') with rfl | rfl <;> simp
      simp only [orElse, pointed_of_ne_point hn hd stop hpoint, pointFirst_of_digits hn hd,
        digits_append hn hd stop]
  exact andThen_eq_some_iff.2 ⟨b, x ++ r, x, body, exponent, rfl⟩

/-- What is read of a text is a numeral alone. -/
theorem reader_alone {t u r : Text} (h : Number.Numeral.reader t = some (u, r)) :
    Number.Numeral.reader u = some (u, []) := by
  obtain ⟨b, x, rfl, hx, hb⟩ := body_of_reader h
  have := reader_append hb hx (r := []) rfl fun _ _ => by simp
  rwa [List.append_nil] at this

end SolidScript.Lexeme
