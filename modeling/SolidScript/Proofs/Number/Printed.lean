import SolidScript.Number.Printed
import SolidScript.Proofs.Lexical.Longest
import SolidScript.Proofs.Number.Decimal

/-!
# Number — what is printed is read back

A printed number is a numeral, and its value in a script is the number that was printed, as long as
it is one of single precision.  However the digits are laid out around the point and the exponent,
they spell the same decimal.

* `Decimal.prints_print`: the numeral that a decimal is printed as.
* `Double.IsSingle.printedAs`: a printed number is read back.
-/

namespace SolidScript.Number
open Format
open Lexeme (IsExponent)
open Text (isDigit)

/-! ### Numerals taken apart -/

namespace Numeral

/-- A numeral is read as its parts. -/
theorem read?_of_spells {t : Text} (h : Spelling.number.Spells t) : read? t = some (ofText t) := by
  obtain ⟨u, s, read, long⟩ := Lexeme.finds_number.reaches [] h
  rw [List.append_nil] at read
  have length := congrArg List.length (splits_reader.append_eq read)
  rw [List.length_append] at length
  obtain rfl : s = [] := List.eq_nil_of_length_eq_zero (by omega)
  rw [read?, read]

/-- The text is a numeral with these digits before and after the point, and with this exponent. -/
structure Written (t whole fraction exponent : Text) : Prop where
  text : t = whole ++ '.' :: (fraction ++ exponent) ∨ fraction = [] ∧ t = whole ++ exponent
  nonempty : whole ≠ []
  whole : ∀ c ∈ whole, isDigit c = true
  fraction : ∀ c ∈ fraction, isDigit c = true
  exponent : exponent = [] ∨ IsExponent exponent

namespace Written
variable {t w f x : Text}

theorem spells (h : Written t w f x) : Spelling.number.Spells t := by
  rcases h.text with ht | ⟨-, ht⟩
  · exact Lexeme.spells_number_iff.2 ⟨w ++ '.' :: f, x, by simp [ht],
      .inl ⟨w, f, rfl, h.whole, h.fraction, .inl h.nonempty⟩, h.exponent⟩
  · exact Lexeme.spells_number_iff.2 ⟨w, x, ht, .inr ⟨h.nonempty, h.whole⟩, h.exponent⟩

/-- An exponent starts with no digit, and with no point. -/
theorem head_exponent (h : Written t w f x) : ∀ c ∈ x.head?, isDigit c = false ∧ c ≠ '.' := by
  rcases h.exponent with rfl | ⟨c, s, ds, rfl, mark, -⟩
  · simp
  · rintro _ ⟨⟩
    refine ⟨Lexeme.not_isDigit_of_isExponentMark mark, ?_⟩
    rintro rfl
    exact absurd mark (by decide)

theorem takeWhile_append_head {p : Char → Bool} {u r : Text} (hu : ∀ c ∈ u, p c = true)
    (hr : ∀ c ∈ r.head?, p c = false) :
    (u ++ r).takeWhile p = u ∧ (u ++ r).dropWhile p = r := by
  have stops : Reader.stops p r = true := by
    cases r with
    | nil => rfl
    | cons c r => simpa [Reader.stops] using hr c rfl
  simpa [Reader.all] using Reader.all_append hu stops

theorem ofText_eq (h : Written t w f x) : ofText t = ⟨w, f, exponentOf x⟩ := by
  have rest := takeWhile_append_head h.fraction fun c hc => (h.head_exponent c hc).1
  rcases h.text with ht | ⟨rfl, ht⟩
  · obtain ⟨before, after⟩ := takeWhile_append_head (r := '.' :: (f ++ x)) h.whole (by simp; decide)
    simp only [ofText, ht, before, after, rest]
  · obtain ⟨before, after⟩ := takeWhile_append_head h.whole fun c hc => (h.head_exponent c hc).1
    unfold ofText
    rw [ht, before, after]
    split
    · exact absurd rfl (h.head_exponent '.' rfl).2
    · rfl

theorem read?_eq (h : Written t w f x) : read? t = some ⟨w, f, exponentOf x⟩ := by
  rw [read?_of_spells h.spells, h.ofText_eq]

end Written

end Numeral

/-! ### The digits that are shown -/

namespace Decimal
variable {d : Decimal}

/-- The digits that are shown, as a number. -/
def mantissa (d : Decimal) : Nat := Nat.ofDigitChars 10 d.shown 0

/-- Of the digits only zeros at the end are left out. -/
theorem exists_zeros (d : Decimal) :
    ∃ k, Nat.toDigits 10 d.digits = d.shown ++ List.replicate k '0' := by
  have zeros : ∀ c ∈ (Nat.toDigits 10 d.digits).reverse.takeWhile (· == '0'), c = '0' :=
    fun c hc => by simpa using List.all_eq_true.1 List.all_takeWhile c hc
  refine ⟨((Nat.toDigits 10 d.digits).reverse.takeWhile (· == '0')).length, ?_⟩
  have parts := List.takeWhile_append_dropWhile (p := (· == '0'))
    (l := (Nat.toDigits 10 d.digits).reverse)
  rw [List.eq_replicate_of_mem zeros] at parts
  have back := congrArg List.reverse parts
  rw [List.reverse_append, List.reverse_reverse, List.reverse_replicate] at back
  exact back.symm

theorem isDigit_of_mem_shown : ∀ c ∈ d.shown, isDigit c = true := by
  obtain ⟨k, hk⟩ := d.exists_zeros
  exact fun c hc => Nat.isDigit_of_mem_toDigits (by decide) (by decide)
    (hk ▸ List.mem_append_left _ hc : c ∈ Nat.toDigits 10 d.digits)

/-- The zeros that are left out count as powers of ten. -/
theorem exists_mantissa (d : Decimal) :
    ∃ k : Nat, d.digits = d.mantissa * 10 ^ k ∧ d.point - d.shown.length = d.scale + k := by
  obtain ⟨k, hk⟩ := d.exists_zeros
  refine ⟨k, ?_, ?_⟩
  · have value := congrArg (Nat.ofDigitChars 10 · 0) hk
    simp only [Nat.ofDigitChars_ten_toDigits, Nat.ofDigitChars_append,
      Nat.ofDigitChars_replicate_zero] at value
    rw [value, Nat.mul_comm]
    rfl
  · rw [Decimal.point, hk, List.length_append, List.length_replicate]
    omega

/-- The digits that are shown and the place of the point tell which double the decimal is. -/
theorem nearest_eq_shown (d : Decimal) :
    d.nearest = (⟨d.mantissa, d.point - d.shown.length⟩ : Decimal).nearest := by
  obtain ⟨k, digits, point⟩ := d.exists_mantissa
  calc d.nearest = (⟨d.mantissa * 10 ^ k, d.scale⟩ : Decimal).nearest := by rw [← digits]
    _ = _ := by rw [nearest_shift, point]

theorem shown_ne_nil (h : 0 < d.digits) : d.shown ≠ [] := by
  intro hn
  obtain ⟨k, digits, -⟩ := d.exists_mantissa
  rw [mantissa, hn, Nat.ofDigitChars_nil, Nat.zero_mul] at digits
  omega

end Decimal

/-! ### Layouts -/

/-- The text is a numeral that is no digits alone, and spells the decimal. -/
structure Prints (t : Text) (m : Nat) (scale : Int) : Prop where
  numeral : ∃ n, Numeral.read? t = some n ∧ (∀ c ∈ n.whole ++ n.fraction, isDigit c = true) ∧
    (⟨n.mantissa, n.scale⟩ : Decimal).nearest = (⟨m, scale⟩ : Decimal).nearest
  spells : Spelling.number.Spells t
  mark : ∃ c ∈ t, isDigit c = false

theorem Numeral.Written.prints {t w f x : Text} (h : Written t w f x) (mark : ∃ c ∈ t, isDigit c = false)
    {m : Nat} {scale : Int}
    (hv : (⟨Nat.ofDigitChars 10 (w ++ f) 0, exponentOf x - f.length⟩ : Decimal).nearest =
      (⟨m, scale⟩ : Decimal).nearest) : Prints t m scale :=
  ⟨⟨_, h.read?_eq, List.forall_mem_append.2 ⟨h.whole, h.fraction⟩, hv⟩, h.spells, mark⟩

section Layouts
variable {digits : Text} (hd : ∀ c ∈ digits, isDigit c = true) (hn : digits ≠ [])

theorem isDigit_of_mem_zeros (k : Nat) : ∀ c ∈ List.replicate k '0', isDigit c = true := by
  rintro c hc
  rw [(List.mem_replicate.1 hc).2]
  decide

include hd hn

/-- Digits with a point among them. -/
theorem prints_positional (point : Int) :
    Prints (positional digits point) (Nat.ofDigitChars 10 digits 0) (point - digits.length) := by
  unfold positional
  split
  · -- zeros between the point and the digits
    rename_i small
    refine Numeral.Written.prints (w := ['0']) (f := List.replicate (-point).toNat '0' ++ digits)
      (x := []) ⟨.inl (by simp), by simp, by simp; decide,
        List.forall_mem_append.2 ⟨isDigit_of_mem_zeros _, hd⟩, .inl rfl⟩
      ⟨'.', by simp, by decide⟩ ?_
    have scale : Numeral.exponentOf [] -
        ((List.replicate (-point).toNat '0' ++ digits).length : Int) = point - digits.length := by
      simp [Numeral.exponentOf]
      omega
    rw [scale, List.singleton_append, Nat.ofDigitChars_cons, Nat.ofDigitChars_append,
      Nat.ofDigitChars_replicate_zero]
    simp
  · rename_i large
    split
    · -- zeros between the digits and the point
      rename_i long
      refine Numeral.Written.prints (f := ['0']) (x := [])
        (w := digits ++ List.replicate (point.toNat - digits.length) '0')
        ⟨.inl (by simp), by simp [hn], List.forall_mem_append.2 ⟨hd, isDigit_of_mem_zeros _⟩,
          by simp; decide, .inl rfl⟩ ⟨'.', by simp, by decide⟩ ?_
      have mantissa : Nat.ofDigitChars 10
          (digits ++ List.replicate (point.toNat - digits.length) '0' ++ ['0']) 0 =
            Nat.ofDigitChars 10 digits 0 * 10 ^ (point.toNat - digits.length + 1) := by
        rw [Nat.ofDigitChars_append, Nat.ofDigitChars_append, Nat.ofDigitChars_replicate_zero,
          Nat.ofDigitChars_cons, Nat.ofDigitChars_nil, Nat.pow_succ]
        simp
        ring
      rw [mantissa, Decimal.nearest_shift]
      congr 2
      simp [Numeral.exponentOf]
      omega
    · -- the point among the digits
      rename_i short
      have taken : digits.take point.toNat ≠ [] := by
        rw [Ne, List.take_eq_nil_iff]
        rintro (zero | nil)
        · omega
        · exact hn nil
      refine Numeral.Written.prints (w := digits.take point.toNat) (f := digits.drop point.toNat)
        (x := []) ⟨.inl (by simp), taken, fun c hc => hd c (List.mem_of_mem_take hc),
          fun c hc => hd c (List.mem_of_mem_drop hc), .inl rfl⟩ ⟨'.', by simp, by decide⟩ ?_
      rw [List.take_append_drop]
      congr 2
      simp [Numeral.exponentOf]
      omega

omit hd hn in
/-- An exponent with its sign is read as the exponent. -/
theorem exponentOf_signed (e : Int) :
    Numeral.exponentOf ('e' :: (if e < 0 then '-' else '+') :: twoDigits e.natAbs) = e := by
  have value (n : Nat) : Nat.ofDigitChars 10 (twoDigits n) 0 = n := by
    unfold twoDigits
    split
    · rw [Nat.ofDigitChars_cons]
      exact Nat.ofDigitChars_ten_toDigits
    · exact Nat.ofDigitChars_ten_toDigits
  split
  · simp only [Numeral.exponentOf, value]
    omega
  · simp only [Numeral.exponentOf, value]
    omega

omit hd hn in
theorem isExponent_signed (e : Int) :
    IsExponent ('e' :: (if e < 0 then '-' else '+') :: twoDigits e.natAbs) := by
  have ten : ∀ c ∈ Nat.toDigits 10 e.natAbs, isDigit c = true :=
    fun c hc => Nat.isDigit_of_mem_toDigits (by decide) (by decide) hc
  refine ⟨'e', [if e < 0 then '-' else '+'], twoDigits e.natAbs, rfl, by decide, .inr ⟨_, rfl, ?_⟩,
    ?_, ?_⟩
  · split <;> decide
  · unfold twoDigits
    split
    · simp
    · exact Nat.toDigits_ne_nil
  · unfold twoDigits
    split
    · exact List.forall_mem_cons.2 ⟨by decide, ten⟩
    · exact ten

/-- Digits with an exponent. -/
theorem prints_scientific (exponent : Int) :
    Prints (scientific digits exponent) (Nat.ofDigitChars 10 digits 0)
      (exponent + 1 - digits.length) := by
  obtain ⟨c, ds, rfl⟩ := List.exists_cons_of_ne_nil hn
  rw [List.forall_mem_cons] at hd
  refine Numeral.Written.prints (w := [c]) (f := ds)
    (x := 'e' :: (if exponent < 0 then '-' else '+') :: twoDigits exponent.natAbs)
    ⟨?_, by simp, by simpa using hd.1, hd.2, .inr (isExponent_signed exponent)⟩
    ⟨'e', by simp [scientific], by decide⟩ ?_
  · cases ds with
    | nil => exact .inr ⟨rfl, by simp [scientific]⟩
    | cons d ds => exact .inl (by simp [scientific])
  · rw [exponentOf_signed, List.singleton_append]
    congr 2
    rw [List.length_cons]
    omega

end Layouts

theorem Decimal.prints_print {d : Decimal} (h : 0 < d.digits) :
    Prints d.print d.mantissa (d.point - d.shown.length) := by
  unfold print
  dsimp only
  split
  · exact prints_positional isDigit_of_mem_shown (shown_ne_nil h) _
  · have prints := prints_scientific isDigit_of_mem_shown (shown_ne_nil h) (d.point - 1)
    rwa [Int.sub_add_cancel] at prints

/-! ### Doubles -/

/-- The text is a numeral that is no digits alone and has the value in a script. -/
structure Double.PrintedAs (v : Double) (t : Text) : Prop where
  value : Numeral.value? t = some v
  spells : Spelling.number.Spells t
  mark : ∃ c ∈ t, isDigit c = false

/-- A printed decimal has the value of the double that it is read as. -/
theorem Decimal.printedAs {d : Decimal} (h : 0 < d.digits) :
    (Double.ofCode false (Numeral.ofSingle (Numeral.toSingle d.nearest))).PrintedAs d.print := by
  obtain ⟨⟨n, read, digits, nearest⟩, spells, mark⟩ := prints_print h
  refine ⟨?_, spells, mark⟩
  rw [Numeral.value?, read, Option.map_some, Numeral.value_eq_nearest digits, nearest,
    ← nearest_eq_shown]

theorem Decimal.digits_pos {d : Decimal} (h : d.nearest ≠ 0) : 0 < d.digits := by
  refine Nat.pos_of_ne_zero fun zero => h ?_
  rw [nearest, zero]
  split
  · rw [Nat.zero_mul, nearest_zero (by decide) (by decide)]
  · rw [nearest_zero (by decide) (Nat.pow_pos (by decide))]

/-- The magnitude of a value of single precision is read back. -/
theorem printedAs_magnitude {c : Nat} (hc : c ≤ binary32.infinity) {code : Nat}
    (h : code = Numeral.ofSingle c) (le : code ≤ binary64.infinity) :
    (Double.ofCode false code).PrintedAs (printMagnitude code) := by
  unfold printMagnitude
  split
  · rename_i zero
    rw [zero]
    have read : Numeral.reader ['0', '.', '0'] = some (['0', '.', '0'], []) := by decide
    exact ⟨by decide +kernel, (Lexeme.finds_number.spells read).2, '.', by decide, by decide⟩
  · rename_i nonzero
    split
    · rename_i top
      rw [Nat.le_antisymm le top]
      have read : Numeral.reader infinite = some (infinite, []) := by decide
      exact ⟨by decide +kernel, (Lexeme.finds_number.spells read).2, 'e', by decide, by decide⟩
    · have nearest := Shortest.nearest_decimal le
      generalize Shortest.decimal code = d at nearest
      have printed := Decimal.printedAs (Decimal.digits_pos (nearest ▸ nonzero : d.nearest ≠ 0))
      rwa [nearest, h, Numeral.toSingle_ofSingle hc, ← h] at printed

/-- A printed number of single precision is read back. -/
theorem Double.IsSingle.printedAs {v : Double} (h : v.IsSingle) : v.PrintedAs v.print := by
  obtain ⟨c, hc, code⟩ := h.exists_code
  have le : v.code ≤ binary64.infinity := by simpa [isNaN] using h.number
  have printed := printedAs_magnitude hc code le
  rw [← eq_ofCode h.unsigned] at printed
  rwa [Double.print, h.number, h.unsigned, if_neg (by simp), if_neg (by simp)]

end SolidScript.Number
