import Mathlib.Order.Interval.Set.UnorderedInterval
import Mathlib.Tactic.Linarith
import SolidScript.Proofs.Number.Denoted
import SolidScript.Proofs.Number.Rounding

/-!
# Number — how far from a double a decimal is read as it

What lies between a double and the next one is rounded to the one on its side of the middle, so a
decimal is read as the double that it is nearer to.  Two neighbouring doubles are farther apart than a
part in ten to the sixteenth of the greater one; a decimal that is within half of that is read as the
double.

The decimals that are read as a double lie without a gap around its value, as rounding keeps order
and the value itself is read as the double.

* `Decimal.nearest_of_between`: decimals between the value and one that is read as the double.
* `Decimal.nearest_of_close`: decimals that are close enough.
-/

namespace SolidScript.Number
open Format

/-! ### Middles between values -/

namespace Format
variable {f : Format} {num den code : ℕ}

/-- From a value up to the next one the power of two is that of the value. -/
theorem excess_eq (hp : 0 < f.precision) {whole e m : ℕ} (lower : m * 2 ^ e ≤ whole)
    (upper : whole < (m + 1) * 2 ^ e) (short : m < 2 * f.binade) (long : e = 0 ∨ f.binade ≤ m) :
    f.excess whole = e := by
  rcases long with rfl | long
  · obtain rfl : whole = m := by omega
    have digits : whole < 2 ^ f.precision := by rwa [← two_mul_binade hp]
    unfold excess
    rcases Nat.eq_zero_or_pos whole with rfl | positive
    · rw [Nat.log2_zero]
      omega
    · have := (Nat.log2_lt positive.ne').2 digits
      omega
  · have least : f.binade * 2 ^ e ≤ whole := (Nat.mul_le_mul_right _ long).trans lower
    have bound : whole < 2 * f.binade * 2 ^ e := upper.trans_le (Nat.mul_le_mul_right _ short)
    have digits : whole.log2 = f.precision - 1 + e := by
      have positive := Nat.mul_pos f.binade_pos (Nat.two_pow_pos e)
      refine (Nat.log2_eq_iff (by omega)).2 ⟨?_, ?_⟩
      · rwa [Nat.pow_add]
      · rwa [Nat.add_right_comm, Nat.sub_add_cancel hp, Nat.pow_add, ← two_mul_binade hp]
    rw [excess, digits]
    omega

/-- A fraction from a value up to the next one is rounded to one of their significands. -/
theorem nearest_of_between (hp : 0 < f.precision) (hd : 0 < den)
    (lower : f.units code * den ≤ num * 2 ^ f.least)
    (upper : num * 2 ^ f.least < f.units (code + 1) * den) :
    ∃ e m, code = e * f.binade + m ∧ f.units code + f.units (code + 1) = (2 * m + 1) * 2 ^ e ∧
      f.nearest num den =
        min f.infinity (e * f.binade + roundQuotient (num * 2 ^ f.least) (den * 2 ^ e)) := by
  obtain ⟨e, m, split, short, long, value, next⟩ := f.exists_significand code
  refine ⟨e, m, split, by rw [value, next]; ring, ?_⟩
  have excess : f.excess (num * 2 ^ f.least / den) = e := by
    refine excess_eq hp ?_ ?_ short long
    · rwa [← value, Nat.le_div_iff_mul_le hd]
    · rwa [← next, Nat.div_lt_iff_lt_mul hd]
  rw [nearest_eq, excess]

/-- The rounding of a value. -/
theorem nearest_units (hp : 0 < f.precision) (hc : code ≤ f.infinity) :
    f.nearest (f.units code) (2 ^ f.least) = code :=
  nearest_of_units hp (Nat.two_pow_pos _) hc rfl

/-- What lies below the middle between a value and the next one is rounded to no more than it. -/
theorem nearest_le_of_lt_middle (hp : 0 < f.precision) (hd : 0 < den)
    (h : 2 * (num * 2 ^ f.least) < (f.units code + f.units (code + 1)) * den) :
    f.nearest num den ≤ code := by
  rcases Nat.lt_or_ge code f.infinity with finite | infinite
  · rcases Nat.lt_or_ge (num * 2 ^ f.least) (f.units code * den) with below | inside
    · rw [← nearest_units hp finite.le]
      exact nearest_mono hp hd (Nat.two_pow_pos _) below.le
    · have less := f.units_strictMono (Nat.lt_succ_self code)
      have upper : num * 2 ^ f.least < f.units (code + 1) * den := by
        have := Nat.mul_le_mul_right den less.le
        rw [Nat.add_mul] at h
        omega
      obtain ⟨e, m, split, middle, nearest⟩ := nearest_of_between hp hd inside upper
      have round : roundQuotient (num * 2 ^ f.least) (den * 2 ^ e) ≤ m := by
        refine (roundQuotient_le_iff (Nat.mul_pos hd (Nat.two_pow_pos e))).2 (.inl ?_)
        rwa [middle, Nat.mul_assoc, Nat.mul_comm (2 ^ e)] at h
      rw [nearest]
      exact (Nat.min_le_right _ _).trans (by omega)
  · exact (nearest_le_infinity ..).trans infinite

/-- What lies above the middle between a value and the next one is rounded to more than it. -/
theorem lt_nearest_of_middle_lt (hp : 0 < f.precision) (hd : 0 < den) (hc : code < f.infinity)
    (h : (f.units code + f.units (code + 1)) * den < 2 * (num * 2 ^ f.least)) :
    code < f.nearest num den := by
  rcases Nat.lt_or_ge (num * 2 ^ f.least) (f.units (code + 1) * den) with inside | above
  · have less := f.units_strictMono (Nat.lt_succ_self code)
    have lower : f.units code * den ≤ num * 2 ^ f.least := by
      have := Nat.mul_le_mul_right den less.le
      rw [Nat.add_mul] at h
      omega
    obtain ⟨e, m, split, middle, nearest⟩ := nearest_of_between hp hd lower inside
    have round : ¬ roundQuotient (num * 2 ^ f.least) (den * 2 ^ e) ≤ m := by
      rw [roundQuotient_le_iff (Nat.mul_pos hd (Nat.two_pow_pos e))]
      rw [middle, Nat.mul_assoc, Nat.mul_comm (2 ^ e)] at h
      omega
    rw [nearest]
    exact Nat.lt_min.2 ⟨hc, by omega⟩
  · calc code + 1 = f.nearest (f.units (code + 1)) (2 ^ f.least) := (nearest_units hp hc).symm
      _ ≤ f.nearest num den := nearest_mono hp (Nat.two_pow_pos _) hd above

end Format

/-! ### Values of decimals and of doubles -/

/-- The value of a decimal. -/
def Decimal.value (d : Decimal) : ℚ := d.digits * 10 ^ d.scale

/-- The value of the double of a code. -/
def doubleValue (code : ℕ) : ℚ := binary64.units code / 2 ^ binary64.least

variable {code : ℕ}

theorem doubleValue_mono {c : ℕ} (h : code ≤ c) : doubleValue code ≤ doubleValue c :=
  div_le_div_of_nonneg_right (Nat.cast_le.2 (binary64.units_strictMono.monotone h))
    (pow_pos two_pos _).le

namespace Decimal
variable {d e : Decimal}

/-- A decimal of no less value is read as no less. -/
theorem nearest_mono (h : d.value ≤ e.value) : d.nearest ≤ e.nearest := by
  obtain ⟨num, den, hd, nearest, value⟩ := Numeral.exists_fraction d
  obtain ⟨num', den', hd', nearest', value'⟩ := Numeral.exists_fraction e
  rw [Decimal.value, Decimal.value, value, value',
    div_le_div_iff₀ (Nat.cast_pos.2 hd) (Nat.cast_pos.2 hd')] at h
  rw [nearest, nearest']
  exact Format.nearest_mono (by decide) hd hd' (by exact_mod_cast h)

/-- Every double is the value of a decimal that is read as it. -/
theorem exists_eq_doubleValue (h : code ≤ binary64.infinity) :
    ∃ e : Decimal, e.value = doubleValue code ∧ e.nearest = code := by
  refine ⟨_, ?_, Shortest.nearest_exact h⟩
  have exact (u l : ℕ) : ((u * Nat.pow 5 l : ℕ) : ℚ) * 10 ^ (-(l : ℤ)) = u / 2 ^ l := by
    have ten : (10 : ℚ) ^ l = 5 ^ l * 2 ^ l := by rw [← mul_pow]; norm_num
    rw [Nat.pow_eq, zpow_neg, zpow_natCast, ten]
    push_cast
    field_simp
  exact exact _ _

/-- Between the value of a double and a decimal that is read as it, every decimal is. -/
theorem nearest_of_between (hc : code ≤ binary64.infinity) (same : d.nearest = code)
    (h : e.value ∈ Set.uIcc (doubleValue code) d.value) : e.nearest = code := by
  obtain ⟨own, value, read⟩ := exists_eq_doubleValue hc
  rw [← value] at h
  rcases Set.mem_uIcc.1 h with ⟨lower, upper⟩ | ⟨lower, upper⟩
  · exact Nat.le_antisymm ((nearest_mono upper).trans same.le) (read.ge.trans (nearest_mono lower))
  · exact Nat.le_antisymm ((nearest_mono upper).trans read.le) (same.ge.trans (nearest_mono lower))

/-- A decimal below the middle between a double and the next one is read as no more than the double. -/
theorem nearest_le_of_lt_middle (h : 2 * d.value < doubleValue code + doubleValue (code + 1)) :
    d.nearest ≤ code := by
  obtain ⟨num, den, hd, nearest, value⟩ := Numeral.exists_fraction d
  rw [Decimal.value, value, doubleValue, doubleValue, ← add_div, ← mul_div_assoc,
    div_lt_div_iff₀ (Nat.cast_pos.2 hd) (pow_pos two_pos _), mul_assoc] at h
  rw [nearest]
  exact Format.nearest_le_of_lt_middle (by decide) hd (by exact_mod_cast h)

/-- A decimal above the middle between a double and the next one is read as more than the double. -/
theorem lt_nearest_of_middle_lt (hc : code < binary64.infinity)
    (h : doubleValue code + doubleValue (code + 1) < 2 * d.value) : code < d.nearest := by
  obtain ⟨num, den, hd, nearest, value⟩ := Numeral.exists_fraction d
  rw [Decimal.value, value, doubleValue, doubleValue, ← add_div, ← mul_div_assoc,
    div_lt_div_iff₀ (pow_pos two_pos _) (Nat.cast_pos.2 hd), mul_assoc] at h
  rw [nearest]
  exact Format.lt_nearest_of_middle_lt (by decide) hd hc (by exact_mod_cast h)

end Decimal

/-- From one double to the next it is more than a part in ten to the sixteenth of the next. -/
theorem doubleValue_lt_gap (code : ℕ) :
    doubleValue (code + 1) < 10 ^ 16 * (doubleValue (code + 1) - doubleValue code) := by
  obtain ⟨e, m, -, short, -, value, next⟩ := binary64.exists_significand code
  have significand : (m : ℚ) + 1 < 10 ^ 16 := by
    have : m + 1 < 10 ^ 16 := lt_of_le_of_lt short (by decide)
    exact_mod_cast this
  have scale : (0 : ℚ) < 2 ^ e / 2 ^ binary64.least := div_pos (pow_pos two_pos _) (pow_pos two_pos _)
  have step : doubleValue (code + 1) - doubleValue code = 2 ^ e / 2 ^ binary64.least := by
    rw [doubleValue, doubleValue, value, next]
    push_cast
    ring
  have own : doubleValue (code + 1) = (m + 1) * (2 ^ e / 2 ^ binary64.least) := by
    rw [doubleValue, next]
    push_cast
    ring
  rw [step, own]
  exact mul_lt_mul_of_pos_right significand scale

/-- A decimal that differs from a double by no more than half a part in ten to the sixteenth is read
as the double. -/
theorem Decimal.nearest_of_close {d : Decimal} (h0 : 0 < code) (hc : code ≤ binary64.infinity)
    (close : 2 * 10 ^ 16 * |d.value - doubleValue code| ≤ doubleValue code) :
    d.nearest = code := by
  have above := le_abs_self (d.value - doubleValue code)
  have below := neg_abs_le (d.value - doubleValue code)
  refine Nat.le_antisymm (nearest_le_of_lt_middle ?_) ?_
  · have gap := doubleValue_lt_gap code
    have more : doubleValue code ≤ doubleValue (code + 1) := doubleValue_mono (Nat.le_succ code)
    linarith
  · obtain ⟨c, rfl⟩ := Nat.exists_eq_add_of_le' h0
    have gap := doubleValue_lt_gap c
    exact lt_nearest_of_middle_lt hc (by linarith)

end SolidScript.Number
