import Mathlib.Data.Nat.Log
import Mathlib.Tactic.Ring
import SolidScript.Number.Numeral

/-!
# Number — values that a format has

A value that a format has is its own rounding, whatever fraction it is given as; and a format has
every value with a significand of no more binary digits than its own, as long as it is in range.
So every single precision value is that of a double.

* `Format.nearest_of_units`: rounding leaves a value of the format as it is.
* `Format.exists_units_eq`: a short significand times a power of two is a value of the format.
* `Numeral.ofSingle_units`: the double of a single precision value has that value.
* `Double.IsSingle`: the value is one of single precision, without a sign.
-/

namespace SolidScript.Number

namespace Format
variable {f : Format}

theorem binade_pos (f : Format) : 0 < f.binade := Nat.two_pow_pos _

/-- Two binades are as many values as a significand has. -/
theorem two_mul_binade (hp : 0 < f.precision) : 2 * f.binade = 2 ^ f.precision := by
  unfold binade
  rw [Nat.pow_eq, ← Nat.pow_succ', Nat.succ_eq_add_one, Nat.sub_add_cancel hp]

/-- The code of a value of at least one binade, from its significand and its power of two. -/
theorem units_of_significand {m e : Nat} (hm : f.binade ≤ m) (hm' : m < 2 * f.binade) :
    f.units (e * f.binade + m) = m * 2 ^ e := by
  obtain ⟨r, rfl⟩ := Nat.exists_eq_add_of_le hm
  have hr : r < f.binade := by omega
  have code : e * f.binade + (f.binade + r) = r + f.binade * (e + 1) := by ring
  have quotient : (r + f.binade * (e + 1)) / f.binade = e + 1 := by
    rw [Nat.add_mul_div_left _ _ f.binade_pos, Nat.div_eq_of_lt hr, Nat.zero_add]
  have remainder : (r + f.binade * (e + 1)) % f.binade = r := by
    rw [Nat.add_mul_mod_self_left, Nat.mod_eq_of_lt hr]
  have large : ¬ r + f.binade * (e + 1) < f.binade := by
    rw [Nat.not_lt]
    calc f.binade = f.binade * 1 := (Nat.mul_one _).symm
      _ ≤ f.binade * (e + 1) := Nat.mul_le_mul_left _ (by omega)
      _ ≤ r + f.binade * (e + 1) := Nat.le_add_left _ _
  rw [code, units, if_neg large, quotient, remainder]
  rfl

/-- Every code is that of a subnormal value or of a significand and a power of two. -/
theorem code_cases (f : Format) (code : Nat) :
    code < f.binade ∨ ∃ e m, code = e * f.binade + m ∧ f.binade ≤ m ∧ m < 2 * f.binade := by
  rcases Nat.lt_or_ge code f.binade with h | h
  · exact .inl h
  · have hd : 1 ≤ code / f.binade := (Nat.one_le_div_iff f.binade_pos).2 h
    have := Nat.mod_lt code f.binade_pos
    refine .inr ⟨code / f.binade - 1, f.binade + code % f.binade, ?_, by omega, by omega⟩
    have whole := Nat.div_add_mod' code f.binade
    obtain ⟨q, hq⟩ := Nat.exists_eq_add_of_le hd
    rw [hq] at whole ⊢
    rw [Nat.add_sub_cancel_left]
    rw [Nat.add_mul, Nat.one_mul] at whole
    omega

/-- The binary digits of a significand of the format. -/
theorem log2_significand (hp : 0 < f.precision) {m : Nat} (e : Nat) (hm : f.binade ≤ m)
    (hm' : m < 2 * f.binade) : (m * 2 ^ e).log2 + 1 = f.precision + e := by
  have bound := two_mul_binade hp
  have hb := f.binade_pos
  have he := Nat.two_pow_pos e
  have digits : (m * 2 ^ e).log2 = f.precision - 1 + e := by
    refine (Nat.log2_eq_iff (Nat.mul_pos (by omega) he).ne').2 ⟨?_, ?_⟩
    · rw [Nat.pow_add]
      exact Nat.mul_le_mul_right _ hm
    · rw [Nat.add_right_comm, Nat.sub_add_cancel hp, Nat.pow_add, ← bound]
      exact Nat.mul_lt_mul_of_pos_right hm' he
  omega

/-- A value of the format is its own rounding. -/
theorem nearest_of_units (hp : 0 < f.precision) {num den code : Nat} (hd : 0 < den)
    (hc : code ≤ f.infinity) (h : num * 2 ^ f.least = f.units code * den) :
    f.nearest num den = code := by
  have whole : f.units code * den / den = f.units code := Nat.mul_div_cancel _ hd
  have scaled : num * Nat.pow 2 f.least = f.units code * den := h
  simp only [nearest, scaled, whole]
  rcases f.code_cases code with hb | ⟨e, m, rfl, hm, hm'⟩
  · -- a subnormal value is a whole number of the least units
    have short : f.excess (f.units code) = 0 := by
      rw [units_of_lt_binade hb, excess]
      rcases Nat.eq_zero_or_pos code with rfl | h0
      · rw [Nat.log2_zero]; omega
      · have : code.log2 < f.precision - 1 := (Nat.log2_lt (by omega)).2 hb
        omega
    rw [short, Nat.zero_mul, Nat.zero_add, Nat.pow_eq, Nat.pow_zero, Nat.mul_one,
      roundQuotient_mul _ hd, units_of_lt_binade hb, Nat.min_eq_right hc]
  · have long : f.excess (f.units (e * f.binade + m)) = e := by
      rw [units_of_significand hm hm', excess, log2_significand hp e hm hm', Nat.add_sub_cancel_left]
    have significand : f.units (e * f.binade + m) * den = m * (den * 2 ^ e) := by
      rw [units_of_significand hm hm', Nat.mul_assoc, Nat.mul_comm (2 ^ e)]
    rw [long, significand, Nat.pow_eq, roundQuotient_mul _ (Nat.mul_pos hd (Nat.two_pow_pos e)),
      Nat.min_eq_right hc]

/-- A short significand times a power of two is a value of the format. -/
theorem exists_units_eq (f : Format) (e : Nat) {m : Nat} (hm : m < 2 * f.binade) :
    ∃ code, f.units code = m * 2 ^ e ∧ code < (e + 2) * f.binade := by
  rcases Nat.lt_or_ge m f.binade with hb | hb
  · -- a shorter significand loses a power of two, until it has full length or none is left
    induction e generalizing m with
    | zero => exact ⟨m, by rw [units_of_lt_binade hb, Nat.pow_zero, Nat.mul_one], by omega⟩
    | succ e ih =>
      have double : m * 2 ^ (e + 1) = 2 * m * 2 ^ e := by rw [Nat.pow_succ']; ring
      rw [double]
      rcases Nat.lt_or_ge (2 * m) f.binade with hb' | hb'
      · obtain ⟨code, hu, hl⟩ := ih (by omega) hb'
        exact ⟨code, hu, hl.trans_le (Nat.mul_le_mul_right _ (by omega))⟩
      · refine ⟨e * f.binade + 2 * m, units_of_significand hb' (by omega), ?_⟩
        rw [Nat.add_mul]
        have : 2 * f.binade ≤ (1 + 2) * f.binade := Nat.mul_le_mul_right _ (by omega)
        rw [Nat.add_mul]
        omega
  · refine ⟨e * f.binade + m, units_of_significand hb hm, ?_⟩
    rw [Nat.add_mul]
    omega

end Format

namespace Numeral
open Format

/-- The power of two of a finite single precision value. -/
theorem exponent_le {e m : Nat} (h : e * binary32.binade + m < binary32.infinity)
    (hm : binary32.binade ≤ m) : e ≤ 253 := by
  by_contra hn
  have : 254 * binary32.binade ≤ e * binary32.binade := Nat.mul_le_mul_right _ (by omega)
  have : binary32.infinity = 254 * binary32.binade + binary32.binade := by decide
  omega

/-- The double of a finite single precision value has that value, and is finite. -/
theorem ofSingle_units {c : Nat} (h : c < binary32.infinity) :
    binary64.units (ofSingle c) * 2 ^ binary32.least = binary32.units c * 2 ^ binary64.least ∧
      ofSingle c < binary64.infinity := by
  -- the significand in the units of the wider format
  obtain ⟨code, value, finite⟩ : ∃ code,
      binary64.units code = binary32.units c * 2 ^ (binary64.least - binary32.least) ∧
        code < binary64.infinity := by
    obtain ⟨k, hk⟩ : ∃ k, k = binary64.least - binary32.least := ⟨_, rfl⟩
    have range : (253 + k + 2) * binary64.binade ≤ binary64.infinity := by rw [hk]; decide
    rw [← hk]
    rcases binary32.code_cases c with hb | ⟨e, m, rfl, hm, hm'⟩
    · obtain ⟨code, hu, hl⟩ := binary64.exists_units_eq k (hb.trans (by decide))
      refine ⟨code, by rw [hu, units_of_lt_binade hb], hl.trans_le (le_trans ?_ range)⟩
      exact Nat.mul_le_mul_right _ (by omega)
    · have he := exponent_le h hm
      obtain ⟨code, hu, hl⟩ := binary64.exists_units_eq (e + k) (hm'.trans (by decide))
      refine ⟨code, ?_, hl.trans_le (le_trans ?_ range)⟩
      · rw [hu, units_of_significand hm hm', Nat.mul_assoc, ← Nat.pow_add]
      · exact Nat.mul_le_mul_right _ (by omega)
  have wider : binary64.least - binary32.least + binary32.least = binary64.least := by decide
  have exact : ofSingle c = code := by
    rw [ofSingle, if_neg (Nat.not_le.2 h)]
    refine nearest_of_units (by decide) (Nat.two_pow_pos _) finite.le ?_
    rw [value, Nat.mul_assoc, Nat.pow_eq, ← Nat.pow_add, wider]
  rw [exact, value, Nat.mul_assoc, ← Nat.pow_add, wider]
  exact ⟨rfl, finite⟩

/-- A single precision value is its own rounding. -/
theorem toSingle_ofSingle {c : Nat} (h : c ≤ binary32.infinity) : toSingle (ofSingle c) = c := by
  rcases Nat.lt_or_eq_of_le h with h | rfl
  · obtain ⟨value, finite⟩ := ofSingle_units h
    rw [toSingle, if_neg (Nat.not_le.2 finite), Nat.pow_eq]
    generalize binary64.least = k at value
    exact nearest_of_units (by decide) (Nat.two_pow_pos k) h.le value
  · rfl

end Numeral

namespace Double
open Format

/-- The value is infinite or one that single precision has, and has no sign. -/
structure IsSingle (v : Double) : Prop where
  unsigned : v.negative = false
  number : v.isNaN = false
  single : v.isInfinite = true ∨ ∃ c < binary32.infinity,
    binary64.units v.code * 2 ^ binary32.least = binary32.units c * 2 ^ binary64.least

/-- A double without a sign is its code. -/
theorem eq_ofCode {v : Double} (h : v.negative = false) : v = ofCode false v.code := by
  have bits : v.bits.toNat < signBit := by simpa [negative] using h
  have code : v.code = v.bits.toNat := Nat.mod_eq_of_lt bits
  rw [ofCode, code, if_neg (by simp), Nat.zero_add, UInt64.ofNat_toNat]

/-- The value is the double of a single precision value. -/
theorem IsSingle.exists_code {v : Double} (h : v.IsSingle) :
    ∃ c ≤ binary32.infinity, v.code = Numeral.ofSingle c := by
  rcases h.single with infinite | ⟨c, finite, value⟩
  · have top : Numeral.ofSingle binary32.infinity = binary64.infinity := rfl
    exact ⟨binary32.infinity, Nat.le_refl _, by simpa [isInfinite, top] using infinite⟩
  · refine ⟨c, finite.le, ?_⟩
    have number : v.code ≤ binary64.infinity := by simpa [isNaN] using h.number
    rw [Numeral.ofSingle, if_neg (Nat.not_le.2 finite)]
    exact (nearest_of_units (by decide) (Nat.two_pow_pos _) number value.symm).symm

end Double

end SolidScript.Number
