import SolidScript.Number.Shortest
import SolidScript.Proofs.Number.Exact

/-!
# Number — decimals and doubles

A decimal is read as the double nearest to it, whatever power of ten its digits count and however
far from one it is: the bounds that a numeral is compared with are no more than a shortcut.  The
shortest decimal of a double is read as that double.

* `Decimal.nearest`: the code of the double that a decimal is read as.
* `Numeral.value_eq_nearest`: the value of a numeral, by way of the decimal that it spells.
* `Shortest.nearest_decimal`: the shortest decimal of a double reads back.
-/

namespace SolidScript.Number
open Format

/-! ### Rounding -/

/-- A quotient is rounded the same in lower terms. -/
theorem roundQuotient_mul_right (num den : Nat) {k : Nat} (hk : 0 < k) :
    roundQuotient (num * k) (den * k) = roundQuotient num den := by
  have twice (r : Nat) : 2 * (r * k) = 2 * r * k := (Nat.mul_assoc ..).symm
  simp only [roundQuotient, Nat.mul_div_mul_right _ _ hk, Nat.mul_mod_mul_right, twice,
    Nat.mul_lt_mul_right hk]

namespace Format
variable {f : Format}

theorem nearest_eq (num den : Nat) :
    f.nearest num den =
      min f.infinity (f.excess (num * 2 ^ f.least / den) * f.binade +
        roundQuotient (num * 2 ^ f.least) (den * 2 ^ f.excess (num * 2 ^ f.least / den))) := rfl

/-- A fraction is rounded the same in lower terms. -/
theorem nearest_mul_right (num den : Nat) {k : Nat} (hk : 0 < k) :
    f.nearest (num * k) (den * k) = f.nearest num den := by
  rw [nearest_eq, nearest_eq, Nat.mul_right_comm, Nat.mul_div_mul_right _ _ hk,
    Nat.mul_right_comm den, roundQuotient_mul_right _ _ hk]

theorem nearest_zero (hp : 0 < f.precision) {den : Nat} (hd : 0 < den) : f.nearest 0 den = 0 :=
  nearest_of_units hp hd (Nat.zero_le _) (by
    rw [units_of_lt_binade f.binade_pos, Nat.zero_mul, Nat.zero_mul])

end Format

/-- What is less than half of the least double is rounded to zero. -/
theorem nearest_of_small {num den : Nat} (h : num * 10 ^ 400 < den) :
    binary64.nearest num den = 0 := by
  have reach : 2 * 2 ^ binary64.least ≤ 10 ^ 400 := by decide +kernel
  have half : 2 * (num * 2 ^ binary64.least) < den := by
    calc 2 * (num * 2 ^ binary64.least) = num * (2 * 2 ^ binary64.least) := Nat.mul_left_comm ..
      _ ≤ num * 10 ^ 400 := Nat.mul_le_mul_left _ reach
      _ < den := h
  have none : num * 2 ^ binary64.least / den = 0 := Nat.div_eq_of_lt (by omega)
  have low : binary64.excess 0 = 0 := by decide
  rw [nearest_eq, none, low, Nat.pow_zero, Nat.mul_one, roundQuotient, none,
    Nat.mod_eq_of_lt (show num * 2 ^ binary64.least < den by omega), if_pos half]
  rfl

/-- What is beyond every double is rounded to infinity. -/
theorem nearest_of_large {num den : Nat} (hd : 0 < den) (h : 10 ^ 400 * den ≤ num) :
    binary64.nearest num den = binary64.infinity := by
  obtain ⟨bits, hb⟩ : ∃ bits, bits = 2100 := ⟨_, rfl⟩
  have reach : 2 ^ bits ≤ 10 ^ 400 * 2 ^ binary64.least := by rw [hb]; decide +kernel
  have scaled : 2 ^ bits ≤ num * 2 ^ binary64.least / den := by
    rw [Nat.le_div_iff_mul_le hd]
    calc 2 ^ bits * den ≤ 10 ^ 400 * 2 ^ binary64.least * den := Nat.mul_le_mul_right _ reach
      _ = 10 ^ 400 * den * 2 ^ binary64.least := Nat.mul_right_comm ..
      _ ≤ num * 2 ^ binary64.least := Nat.mul_le_mul_right _ h
  have digits : bits ≤ (num * 2 ^ binary64.least / den).log2 :=
    (Nat.le_log2 (Nat.ne_of_gt (Nat.lt_of_lt_of_le (Nat.two_pow_pos _) scaled))).2 scaled
  have low : 2048 ≤ binary64.excess (num * 2 ^ binary64.least / den) := by
    have precision : binary64.precision = 53 := rfl
    rw [excess, precision]
    omega
  rw [nearest_eq]
  refine Nat.min_eq_left ?_
  calc binary64.infinity ≤ 2048 * binary64.binade := by decide
    _ ≤ _ := Nat.mul_le_mul_right _ low
    _ ≤ _ := Nat.le_add_right _ _

/-! ### Decimals -/

namespace Decimal

/-- The code of the double that the decimal is read as. -/
def nearest (d : Decimal) : Nat :=
  if 0 ≤ d.scale then binary64.nearest (d.digits * 10 ^ d.scale.toNat) 1
  else binary64.nearest d.digits (10 ^ (-d.scale).toNat)

/-- Zeros at the end of the digits can be counted by the power of ten. -/
theorem nearest_shift (m : Nat) (scale : Int) (k : Nat) :
    (⟨m * 10 ^ k, scale⟩ : Decimal).nearest = (⟨m, scale + k⟩ : Decimal).nearest := by
  unfold nearest
  dsimp only
  rcases Int.lt_or_le scale 0 with hs | hs
  · rw [if_neg (Int.not_le.2 hs)]
    rcases Int.lt_or_le (scale + k) 0 with hk | hk
    · rw [if_neg (Int.not_le.2 hk), show (-scale).toNat = (-(scale + k)).toNat + k by omega,
        Nat.pow_add, nearest_mul_right _ _ (Nat.pow_pos (by decide))]
    · obtain ⟨j, hj⟩ : ∃ j, j = (scale + k).toNat := ⟨_, rfl⟩
      rw [if_pos hk, ← hj, show k = j + (-scale).toNat by omega, Nat.pow_add, ← Nat.mul_assoc]
      have lower := nearest_mul_right (f := binary64) (m * 10 ^ j) 1
        (Nat.pow_pos (by decide) : 0 < 10 ^ (-scale).toNat)
      rwa [Nat.one_mul] at lower
  · rw [if_pos hs, if_pos (by omega), show (scale + k).toNat = k + scale.toNat by omega,
      Nat.pow_add, Nat.mul_assoc]

end Decimal

/-! ### Numerals -/

namespace Numeral

section Digits
variable {m digits j k : Nat}

/-- A number with more digits than zeros that are left off is large. -/
theorem ten_pow_le (h : 10 ^ digits ≤ m * 10) (hk : k + j < digits) : 10 ^ k * 10 ^ j ≤ m := by
  refine Nat.le_of_mul_le_mul_right ?_ (show 0 < 10 by decide)
  calc 10 ^ k * 10 ^ j * 10 = 10 ^ (k + j + 1) := by rw [← Nat.pow_add, Nat.pow_succ]
    _ ≤ 10 ^ digits := Nat.pow_le_pow_right (by decide) hk
    _ ≤ m * 10 := h

theorem ten_pow_le_mul (h : 10 ^ digits ≤ m * 10) (hk : k < digits + j) :
    10 ^ k * 1 ≤ m * 10 ^ j := by
  refine Nat.le_of_mul_le_mul_right ?_ (show 0 < 10 by decide)
  calc 10 ^ k * 1 * 10 = 10 ^ (k + 1) := by rw [Nat.mul_one, Nat.pow_succ]
    _ ≤ 10 ^ (digits + j) := Nat.pow_le_pow_right (by decide) hk
    _ = 10 ^ digits * 10 ^ j := Nat.pow_add ..
    _ ≤ m * 10 * 10 ^ j := Nat.mul_le_mul_right _ h
    _ = m * 10 ^ j * 10 := Nat.mul_right_comm ..

theorem mul_ten_pow_lt (h : m < 10 ^ digits) (hk : digits + k ≤ j) : m * 10 ^ k < 10 ^ j := by
  calc m * 10 ^ k < 10 ^ digits * 10 ^ k :=
        Nat.mul_lt_mul_of_pos_right h (Nat.pow_pos (by decide))
    _ = 10 ^ (digits + k) := (Nat.pow_add ..).symm
    _ ≤ 10 ^ j := Nat.pow_le_pow_right (by decide) hk

end Digits

/-- The bounds that a numeral is compared with change nothing. -/
theorem nearestDouble_eq_nearest {m digits : Nat} (scale : Int)
    (h : m = 0 ∨ 10 ^ digits ≤ m * 10 ∧ m < 10 ^ digits) :
    nearestDouble m digits scale = (⟨m, scale⟩ : Decimal).nearest := by
  unfold nearestDouble Decimal.nearest
  dsimp only
  split
  · rename_i hm
    rw [hm, Nat.zero_mul, nearest_zero (by decide) (by decide),
      nearest_zero (by decide) (Nat.pow_pos (by decide)), ite_self]
  · rename_i hm
    obtain ⟨lower, upper⟩ := h.resolve_left hm
    split
    · rename_i large
      rcases Int.lt_or_le scale 0 with hs | hs
      · rw [if_neg (Int.not_le.2 hs)]
        exact (nearest_of_large (Nat.pow_pos (by decide)) (ten_pow_le lower (by omega))).symm
      · rw [if_pos hs]
        exact (nearest_of_large Nat.one_pos (ten_pow_le_mul lower (by omega))).symm
    · split
      · rename_i small
        rw [if_neg (by omega)]
        exact (nearest_of_small (mul_ten_pow_lt upper (by omega))).symm
      · rfl

/-- The value of a digit. -/
theorem digit_le {c : Char} (h : Text.isDigit c = true) : c.toNat - '0'.toNat ≤ 9 := by
  have bound : c.toNat ≤ 57 := by
    simp only [Text.isDigit, Char.isDigit, Bool.and_eq_true, decide_eq_true_eq] at h
    exact h.2
  exact Nat.sub_le_sub_right bound 48

theorem digit_eq_zero {c : Char} (h : Text.isDigit c = true) (hc : c.toNat - '0'.toNat = 0) :
    c = '0' := by
  have bound : 48 ≤ c.toNat := by
    simp only [Text.isDigit, Char.isDigit, Bool.and_eq_true, decide_eq_true_eq] at h
    exact h.1
  have zero : '0'.toNat = 48 := rfl
  refine Char.toNat_inj.1 ?_
  omega

/-- The first digit counts as many as digits follow it. -/
theorem ofDigitChars_cons_zero (c : Char) (ds : Text) :
    Nat.ofDigitChars 10 (c :: ds) 0 =
      10 ^ ds.length * (c.toNat - '0'.toNat) + Nat.ofDigitChars 10 ds 0 := by
  rw [Nat.ofDigitChars_cons, Nat.mul_zero, Nat.zero_add, Nat.ofDigitChars_eq_ofDigitChars_zero]

/-- So many digits stay below that power of ten. -/
theorem ofDigitChars_lt {ds : Text} (h : ∀ c ∈ ds, Text.isDigit c = true) :
    Nat.ofDigitChars 10 ds 0 < 10 ^ ds.length := by
  induction ds with
  | nil => decide
  | cons c ds ih =>
    have rest := ih fun d hd => h d (.tail _ hd)
    have first := Nat.mul_le_mul_left (10 ^ ds.length) (digit_le (h c List.mem_cons_self))
    rw [ofDigitChars_cons_zero, List.length_cons, Nat.pow_succ]
    omega

/-- Zeros in front of digits count nothing. -/
theorem ofDigitChars_dropZeros (ds : Text) :
    Nat.ofDigitChars 10 (ds.dropWhile (· == '0')) 0 = Nat.ofDigitChars 10 ds 0 := by
  induction ds with
  | nil => rfl
  | cons c ds ih =>
    rw [List.dropWhile_cons]
    split
    · rename_i hc
      obtain rfl : c = '0' := by simpa using hc
      rw [ih, ofDigitChars_cons_zero, Nat.sub_self, Nat.mul_zero, Nat.zero_add]
    · rfl

theorem mantissa_bounds {n : Numeral} (h : ∀ c ∈ n.whole ++ n.fraction, Text.isDigit c = true) :
    n.mantissa = 0 ∨ 10 ^ n.significant ≤ n.mantissa * 10 ∧ n.mantissa < 10 ^ n.significant := by
  unfold mantissa significant
  rw [← ofDigitChars_dropZeros]
  have digits : ∀ c ∈ (n.whole ++ n.fraction).dropWhile (· == '0'), Text.isDigit c = true :=
    fun c hc => h c ((List.dropWhile_suffix _).subset hc)
  have first := List.head?_dropWhile_not (· == '0') (n.whole ++ n.fraction)
  generalize (n.whole ++ n.fraction).dropWhile (· == '0') = ds at digits first
  cases ds with
  | nil => exact .inl rfl
  | cons c ds =>
    refine .inr ⟨?_, ofDigitChars_lt digits⟩
    have positive : 1 ≤ c.toNat - '0'.toNat := by
      refine Nat.one_le_iff_ne_zero.2 fun zero => ?_
      rw [digit_eq_zero (digits c List.mem_cons_self) zero] at first
      simp at first
    have least := Nat.mul_le_mul_left (10 ^ ds.length) positive
    rw [ofDigitChars_cons_zero, List.length_cons, Nat.pow_succ]
    omega

/-- The value of a numeral, by way of the decimal that it spells. -/
theorem value_eq_nearest {n : Numeral} (h : ∀ c ∈ n.whole ++ n.fraction, Text.isDigit c = true) :
    n.value = .ofCode false (ofSingle (toSingle (⟨n.mantissa, n.scale⟩ : Decimal).nearest)) := by
  rw [value, single, nearestDouble_eq_nearest n.scale (mantissa_bounds h)]

end Numeral

/-! ### The shortest decimal -/

namespace Shortest

theorem readsBack_iff {code : Nat} {d : Decimal} : readsBack code d = true ↔ d.nearest = code := by
  unfold readsBack Decimal.nearest
  split <;> exact beq_iff_eq

/-- A neighbour on a grid that is found reads back. -/
theorem nearest_of_onGrid? {code : Nat} {scale : Int} {d : Decimal}
    (h : onGrid? code scale = some d) : d.nearest = code := by
  unfold onGrid? at h
  generalize onGrid code scale = grid at h
  obtain ⟨num, den⟩ := grid
  dsimp only at h
  split at h
  · -- both neighbours read back, and the value is rounded to one of them
    rename_i below above
    cases h
    obtain ⟨lower, upper⟩ := roundQuotient_bounds num den
    rcases (by omega : roundQuotient num den = num / den ∨ roundQuotient num den = num / den + 1)
      with he | he
    · rw [he]
      exact readsBack_iff.1 below
    · rw [he]
      exact readsBack_iff.1 above
  · rename_i below _
    cases h
    exact readsBack_iff.1 below
  · rename_i _ above
    cases h
    exact readsBack_iff.1 above
  · cases h

theorem nearest_of_search {code : Nat} {magnitude : Int} {d : Decimal} :
    ∀ {tries digits : Nat}, search code magnitude tries digits = some d → d.nearest = code
  | 0, _, h => by cases h
  | tries + 1, digits, h => by
    unfold search at h
    split at h
    · rename_i found
      cases h
      exact nearest_of_onGrid? found
    · exact nearest_of_search h

/-- The value of a double itself is read as the double. -/
theorem nearest_exact {code : Nat} (h : code ≤ binary64.infinity) :
    (⟨binary64.units code * Nat.pow 5 binary64.least, -binary64.least⟩ : Decimal).nearest =
      code := by
  have tens (n : Nat) : Nat.pow 5 n * 2 ^ n = 10 ^ n := (Nat.mul_pow 5 2 n).symm
  have units := tens binary64.least
  have scale : ¬ (0 : Int) ≤ -(binary64.least : Int) := by decide
  have nearest {den fives : Nat} (hf : fives * 2 ^ binary64.least = den) (hd : 0 < den) :
      binary64.nearest (binary64.units code * fives) den = code :=
    nearest_of_units (by decide) hd h (by rw [Nat.mul_assoc, hf])
  rw [Decimal.nearest, if_neg scale, Int.neg_neg, Int.toNat_natCast]
  exact nearest units (Nat.pow_pos (by decide))

/-- Stated of the function: of one value, the kernel would set about the search. -/
theorem decimal_eq : decimal = fun code =>
    match search code (magnitude code) 17 1 with
    | some d => d
    | none   => ⟨binary64.units code * Nat.pow 5 binary64.least, -binary64.least⟩ := rfl

/-- The shortest decimal of a double is read as the double. -/
theorem nearest_decimal {code : Nat} (h : code ≤ binary64.infinity) :
    (decimal code).nearest = code := by
  rw [decimal_eq]
  beta_reduce
  split
  · rename_i found
    exact nearest_of_search found
  · exact nearest_exact h

end Shortest

end SolidScript.Number
