import Mathlib.Order.Bounds.Basic
import Mathlib.Order.WithBot
import SolidScript.Error
import SolidScript.Proofs.Number.Denoted
import SolidScript.Proofs.Number.Rounding

/-!
# Numbers — what a numeral is converted to

A text is converted to a number when it is a numeral.  The number is a value of single precision: the
value of the numeral itself, if that is one, and else the next one below or above, where infinity is
next above the greatest finite one.  Numerals of no less value are converted to no less, so numerals
of one value to one number.

Rounding twice may give the neighbour that is further away.  It gives no other value, as both
roundings keep order and leave the values of single precision where they are: no such value lies
between a fraction and what it is rounded to.

* `IsSinglePrecision`, `IsNeighbour`: the values of single precision, and those next to a value.
* `isNeighbour_rounded`: two roundings give a neighbour.
* `read_rounds`: the conversion of all texts.
-/

namespace SolidScript.Number
open Format Numeral

/-! ### Values of single precision -/

/-- The value is infinite, or a significand of twenty-four binary digits times a power of two in the
range of single precision.  No value here has a sign. -/
def IsSinglePrecision (x : WithTop ℚ) : Prop :=
  x = ⊤ ∨ ∃ (m : ℕ) (e : ℤ), m < 2 ^ 24 ∧ -149 ≤ e ∧ e ≤ 104 ∧ x = ((m * 2 ^ e : ℚ) : WithTop ℚ)

/-- The value is the greatest one of single precision that is not above, or the least one that is
not below. -/
def IsNeighbour (q r : WithTop ℚ) : Prop :=
  IsGreatest {s | IsSinglePrecision s ∧ s ≤ q} r ∨ IsLeast {s | IsSinglePrecision s ∧ q ≤ s} r

/-- The value of a double, its sign aside. -/
def Double.magnitude (v : Double) : WithTop ℚ :=
  if v.isInfinite then ⊤ else ((binary64.units v.code / 2 ^ binary64.least : ℚ) : WithTop ℚ)

/-- The value of a code of single precision. -/
def singleValue (c : ℕ) : WithTop ℚ :=
  if binary32.infinity ≤ c then ⊤
  else ((binary32.units c / 2 ^ binary32.least : ℚ) : WithTop ℚ)

variable {c d num den : ℕ} {q : ℚ}

theorem singleValue_of_lt (h : c < binary32.infinity) :
    singleValue c = ((binary32.units c / 2 ^ binary32.least : ℚ) : WithTop ℚ) :=
  if_neg (Nat.not_le.2 h)

theorem singleValue_of_infinite (h : binary32.infinity ≤ c) : singleValue c = ⊤ := if_pos h

/-- A value in units of the least is a significand times a power of two. -/
theorem div_two_pow (m k n : ℕ) : (m * 2 ^ k : ℚ) / 2 ^ n = m * 2 ^ ((k : ℤ) - n) := by
  have two : (2 : ℚ) ≠ 0 := by norm_num
  rw [zpow_sub₀ two, zpow_natCast, zpow_natCast, mul_div_assoc]

/-- A code stands for a value of single precision. -/
theorem isSinglePrecision_singleValue (c : ℕ) : IsSinglePrecision (singleValue c) := by
  rcases Nat.lt_or_ge c binary32.infinity with finite | infinite
  · rw [singleValue_of_lt finite]
    rcases binary32.code_cases c with low | ⟨e, m, rfl, hm, hm'⟩
    · -- a subnormal value counts the least ones
      refine .inr ⟨c, -149, low.trans (by decide), le_rfl, by decide, ?_⟩
      have value := div_two_pow c 0 binary32.least
      rw [pow_zero, mul_one] at value
      rw [units_of_lt_binade low, value]
      rfl
    · have range := exponent_le finite hm
      refine .inr ⟨m, (e : ℤ) - 149, hm', by omega, by omega, ?_⟩
      rw [units_of_significand hm hm', Nat.cast_mul, Nat.cast_pow, Nat.cast_ofNat, div_two_pow]
      rfl
  · exact .inl (singleValue_of_infinite infinite)

/-- A value of single precision has a code. -/
theorem IsSinglePrecision.exists_code {x : WithTop ℚ} (h : IsSinglePrecision x) :
    ∃ c ≤ binary32.infinity, x = singleValue c := by
  rcases h with rfl | ⟨m, e, short, lower, upper, rfl⟩
  · exact ⟨_, le_rfl, (singleValue_of_infinite le_rfl).symm⟩
  · have top : binary32.infinity = 255 * binary32.binade := by decide
    obtain ⟨k, rfl⟩ : ∃ k : ℕ, e = (k : ℤ) - binary32.least :=
      ⟨(e + 149).toNat, by change e = _ - 149; omega⟩
    have range : k ≤ 253 := by
      have : (k : ℤ) - 149 ≤ 104 := upper
      omega
    obtain ⟨c, units, bound⟩ := binary32.exists_units_eq k (show m < 2 * binary32.binade from short)
    have finite : c < binary32.infinity := by
      rw [top]
      exact bound.trans_le (Nat.mul_le_mul_right _ (by omega))
    refine ⟨c, finite.le, ?_⟩
    rw [singleValue_of_lt finite, units, Nat.cast_mul, Nat.cast_pow, Nat.cast_ofNat, div_two_pow]

/-- Greater codes stand for greater values. -/
theorem singleValue_mono (h : c ≤ d) : singleValue c ≤ singleValue d := by
  rcases Nat.lt_or_ge d binary32.infinity with finite | infinite
  · rw [singleValue_of_lt finite, singleValue_of_lt (h.trans_lt finite), WithTop.coe_le_coe]
    have units : (binary32.units c : ℚ) ≤ binary32.units d :=
      Nat.cast_le.2 (binary32.units_strictMono.monotone h)
    exact div_le_div_of_nonneg_right units (pow_pos two_pos _).le
  · rw [singleValue_of_infinite infinite]
    exact le_top

/-- The double of a value of single precision has that value. -/
theorem magnitude_ofSingle (h : c ≤ binary32.infinity) :
    (Double.ofCode false (ofSingle c)).magnitude = singleValue c := by
  rcases Nat.lt_or_eq_of_le h with finite | rfl
  · obtain ⟨value, finite'⟩ := ofSingle_units finite
    have code : (Double.ofCode false (ofSingle c)).code = ofSingle c :=
      Double.code_ofCode (finite'.trans (by decide))
    have number : (Double.ofCode false (ofSingle c)).isInfinite = false := by
      rw [Double.isInfinite, code]
      exact beq_false_of_ne finite'.ne
    rw [Double.magnitude, number, if_neg Bool.false_ne_true, code, singleValue_of_lt finite]
    have value : (binary64.units (ofSingle c) : ℚ) * 2 ^ binary32.least =
        binary32.units c * 2 ^ binary64.least := by exact_mod_cast value
    congr 1
    rw [div_eq_div_iff (pow_pos two_pos _).ne' (pow_pos two_pos _).ne', value]
  · decide +kernel

/-! ### Two roundings -/

/-- The code that a fraction is rounded to, by way of the doubles. -/
def rounded (num den : ℕ) : ℕ := toSingle (binary64.nearest num den)

theorem rounded_le (num den : ℕ) : rounded num den ≤ binary32.infinity := toSingle_le _

theorem rounded_mono {num' den' : ℕ} (hd : 0 < den) (hd' : 0 < den')
    (h : (num / den : ℚ) ≤ num' / den') : rounded num den ≤ rounded num' den' := by
  have products : (num : ℚ) * den' ≤ num' * den :=
    (div_le_div_iff₀ (Nat.cast_pos.2 hd) (Nat.cast_pos.2 hd')).1 h
  exact toSingle_nearest_mono hd hd' (by exact_mod_cast products)

/-- A value of single precision stays where it is. -/
theorem rounded_units (h : c < binary32.infinity) :
    rounded (binary32.units c) (2 ^ binary32.least) = c :=
  toSingle_nearest_of_units (Nat.two_pow_pos _) h rfl

/-- No value of single precision lies between a fraction and what it is rounded to. -/
theorem rounded_between (hd : 0 < den) (hc : c ≤ binary32.infinity) :
    (singleValue c ≤ ((num / den : ℚ) : WithTop ℚ) → singleValue c ≤ singleValue (rounded num den)) ∧
      (((num / den : ℚ) : WithTop ℚ) ≤ singleValue c →
        singleValue (rounded num den) ≤ singleValue c) := by
  rcases Nat.lt_or_eq_of_le hc with finite | rfl
  · have stays := rounded_units finite
    have value : singleValue c =
        ((binary32.units c / (2 ^ binary32.least : ℕ) : ℚ) : WithTop ℚ) := by
      rw [singleValue_of_lt finite, Nat.cast_pow, Nat.cast_ofNat]
    constructor
    · intro le
      rw [value, WithTop.coe_le_coe] at le
      have mono := rounded_mono (Nat.two_pow_pos _) hd le
      rw [stays] at mono
      exact singleValue_mono mono
    · intro le
      rw [value, WithTop.coe_le_coe] at le
      have mono := rounded_mono hd (Nat.two_pow_pos _) le
      rw [stays] at mono
      exact singleValue_mono mono
  · rw [singleValue_of_infinite le_rfl]
    exact ⟨fun le => absurd (top_le_iff.1 le) WithTop.coe_ne_top, fun _ => le_top⟩

/-- A fraction is rounded to a neighbour. -/
theorem isNeighbour_rounded (hd : 0 < den) :
    IsNeighbour ((num / den : ℚ) : WithTop ℚ) (singleValue (rounded num den)) := by
  have single := isSinglePrecision_singleValue (rounded num den)
  rcases le_total (singleValue (rounded num den)) ((num / den : ℚ) : WithTop ℚ) with below | above
  · refine .inl ⟨⟨single, below⟩, ?_⟩
    rintro s ⟨hs, le⟩
    obtain ⟨c, hc, rfl⟩ := hs.exists_code
    exact (rounded_between hd hc).1 le
  · refine .inr ⟨⟨single, above⟩, ?_⟩
    rintro s ⟨hs, le⟩
    obtain ⟨c, hc, rfl⟩ := hs.exists_code
    exact (rounded_between hd hc).2 le

/-- A value of single precision is its own neighbour. -/
theorem IsNeighbour.eq {q r : WithTop ℚ} (h : IsNeighbour q r) (hq : IsSinglePrecision q) : r = q := by
  rcases h with ⟨⟨-, le⟩, greatest⟩ | ⟨⟨-, le⟩, least⟩
  · exact le_antisymm le (greatest ⟨hq, le_rfl⟩)
  · exact le_antisymm (least ⟨hq, le_rfl⟩) le

/-! ### Numerals -/

/-- The conversion of a numeral. -/
theorem Numeral.Denotes.read_eq {t : Text} (h : Denotes t q) (position : Option Position) :
    ∃ num den : ℕ, 0 < den ∧ q = num / den ∧
      read t position = .ok (.ofCode false (ofSingle (rounded num den))) := by
  obtain ⟨num, den, hd, value, converted⟩ := h.exists_fraction
  exact ⟨num, den, hd, value, by rw [read, converted]; rfl⟩

theorem read_eq_error_iff {t : Text} {position : Option Position} :
    (∃ e, read t position = .error e) ↔ ¬ Spelling.number.Spells t := by
  rw [← read?_eq_none_iff]
  unfold read value?
  cases read? t <;> simp

/-- What is wrong with a text is that it is no number. -/
theorem kind_of_read {t : Text} {position : Option Position} {e : Report}
    (h : read t position = .error e) : e.kind = .numeric := by
  unfold read at h
  split at h
  · cases h
  · cases h
    rfl

/-- The double of a value of single precision is a number without a sign. -/
theorem ofCode_ofSingle (c : ℕ) :
    (Double.ofCode false (ofSingle c)).negative = false ∧
      (Double.ofCode false (ofSingle c)).isNaN = false := by
  have le : ofSingle c ≤ binary64.infinity := by
    unfold ofSingle
    split
    · exact le_rfl
    · exact nearest_le_infinity ..
  have lt : ofSingle c < Double.signBit := le.trans_lt (by decide)
  refine ⟨Double.negative_ofCode lt, ?_⟩
  rw [Double.isNaN, Double.code_ofCode lt]
  exact decide_eq_false (Nat.not_lt.2 le)

/-- A text that is no numeral is refused as a number.  A numeral has one exact value, and is converted
to that value, if single precision has it, and else to one of the two next to it; and any numeral of
no less value is converted to no less, one of the same value to the same number. -/
theorem read_rounds (t : Text) (position : Option Position) :
    ((∃ e, read t position = .error e) ↔ ¬ Spelling.number.Spells t) ∧
    (∀ e, read t position = .error e → e.kind = .numeric) ∧
    ∀ v, read t position = .ok v → ∃ q : ℚ, Denotes t q ∧ (∀ q', Denotes t q' → q' = q) ∧
      v.negative = false ∧ v.isNaN = false ∧
      (IsSinglePrecision q → v.magnitude = q) ∧ IsNeighbour q v.magnitude ∧
      ∀ u position' q' w, Denotes u q' → read u position' = .ok w →
        (q ≤ q' → v.magnitude ≤ w.magnitude) ∧ (q = q' → v = w) := by
  refine ⟨read_eq_error_iff, fun e => kind_of_read, fun v ok => ?_⟩
  have spells : Spelling.number.Spells t := by
    by_contra other
    obtain ⟨e, refused⟩ := read_eq_error_iff.2 other
    rw [ok] at refused
    cases refused
  obtain ⟨q, denotes⟩ := exists_denotes_iff.2 spells
  obtain ⟨num, den, hd, value, converted⟩ := denotes.read_eq position
  rw [ok] at converted
  obtain rfl := Except.ok.inj converted
  obtain ⟨unsigned, number⟩ := ofCode_ofSingle (rounded num den)
  have neighbour : IsNeighbour ((num / den : ℚ) : WithTop ℚ) (singleValue (rounded num den)) :=
    isNeighbour_rounded hd
  rw [← value, ← magnitude_ofSingle (rounded_le num den)] at neighbour
  refine ⟨q, denotes, fun q' h => h.unique denotes, unsigned, number, neighbour.eq, neighbour, ?_⟩
  intro u position' q' w denotes' ok'
  obtain ⟨num', den', hd', value', converted'⟩ := denotes'.read_eq position'
  rw [ok'] at converted'
  obtain rfl := Except.ok.inj converted'
  constructor
  · intro le
    rw [magnitude_ofSingle (rounded_le num den), magnitude_ofSingle (rounded_le num' den')]
    exact singleValue_mono (rounded_mono hd hd' (value ▸ value' ▸ le))
  · rintro rfl
    have same : rounded num den = rounded num' den' :=
      le_antisymm (rounded_mono hd hd' (value.symm.trans value').le)
        (rounded_mono hd' hd (value'.symm.trans value).le)
    rw [same]

/-- Of the neighbours it need not be the nearer one: a little above the middle between one and the
next value, the first rounding gives the middle, and the second the even value, which is one. -/
example : value? (Text.lit "1.00000005960464477539062500001") = some ⟨0x3ff0000000000000⟩ := by
  decide +kernel

end SolidScript.Number
