import Mathlib.Algebra.Order.Floor.Semifield
import Mathlib.Algebra.Order.Group.Pointwise.Interval
import Mathlib.Data.Nat.Cast.Order.Field
import Mathlib.Data.Rat.Floor
import SolidScript.Proofs.Number.Middle

/-!
# Number — no decimal is shorter, and none as short is nearer

A decimal that is read as a double and shows so many digits lies on the grid of so many digits, or
below all of that grid.  Between it and the value of the double lies a decimal of the grid in either
case, and a neighbour of the value; so the grid has a hit.  The search goes through the grids from one
digit on, and a hit shows no more digits than its grid has.

On the grid of seventeen digits a neighbour of the value is close enough to be read as the double,
whatever the double is, so the search finds one.

* `Shortest.exists_onGrid?`, `Shortest.hit_of_onGrid?`: when a grid has a hit, and what it is.
* `Shortest.exists_hit`: the search finds one.
* `Shortest.decimal_shortest`: the decimal that is found, among all that are read as the double.
-/

namespace SolidScript.Number
open Format

variable {code : ℕ}

/-! ### Grids -/

/-- Rounding a quotient moves it by a half at most. -/
theorem roundQuotient_close {num den : ℕ} (hd : 0 < den) :
    |(roundQuotient num den : ℚ) - num / den| ≤ 1 / 2 := by
  have hden : (0 : ℚ) < den := Nat.cast_pos.2 hd
  have upper := (roundQuotient_le_iff hd).1 (Nat.le_refl (roundQuotient num den))
  have lower (n : ℕ) (h : roundQuotient num den = n + 1) : (2 * n + 1) * den ≤ 2 * num := by
    by_contra less
    have := (roundQuotient_le_iff hd).2 (.inl (Nat.not_le.1 less))
    omega
  generalize roundQuotient num den = n at upper lower
  have upper : (2 * num : ℚ) ≤ (2 * n + 1) * den := by
    have : 2 * num ≤ (2 * n + 1) * den := by omega
    exact_mod_cast this
  have lower : (2 * n - 1 : ℚ) * den ≤ 2 * num := by
    cases n with
    | zero =>
      have : (0 : ℚ) ≤ num := Nat.cast_nonneg _
      push_cast
      linarith
    | succ n =>
      have : ((2 * n + 1 : ℕ) * den : ℚ) ≤ (2 * num : ℕ) := by exact_mod_cast lower n rfl
      push_cast at this ⊢
      linarith
  rw [abs_le]
  constructor
  · rw [neg_le_sub_iff_le_add, div_le_iff₀ hden]
    linarith
  · rw [sub_le_iff_le_add, ← sub_le_iff_le_add', le_div_iff₀ hden]
    linarith

/-- An integer that is no more than a half away is the nearest of all. -/
theorem nearest_of_half {n m : ℕ} {x : ℚ} (h : |(n : ℚ) - x| ≤ 1 / 2) :
    |(n : ℚ) - x| ≤ |(m : ℚ) - x| := by
  obtain ⟨lower, upper⟩ := abs_le.1 h
  rcases Nat.lt_trichotomy m n with less | rfl | more
  · have : (m : ℚ) + 1 ≤ n := by exact_mod_cast less
    exact h.trans (le_abs.2 (.inr (by linarith)))
  · exact le_refl _
  · have : (n : ℚ) + 1 ≤ m := by exact_mod_cast more
    exact h.trans (le_abs.2 (.inl (by linarith)))

theorem div_bounds (num den : ℕ) :
    ((num / den : ℕ) : ℚ) ≤ num / den ∧ (num : ℚ) / den < (num / den : ℕ) + 1 := by
  rw [← Nat.floor_div_eq_div (K := ℚ)]
  exact ⟨Nat.floor_le (by positivity), Nat.lt_floor_add_one _⟩

namespace Shortest
variable {num den m : ℕ} {scale : ℤ} {d : Decimal}

/-- The value of a double, counted in units of a grid, as a fraction. -/
structure Gridded (code : ℕ) (scale : ℤ) (num den : ℕ) : Prop where
  eq : onGrid code scale = (num, den)
  pos : 0 < den
  value : doubleValue code = num / den * 10 ^ scale

/-- On every grid the value of a double is a fraction of units. -/
theorem exists_gridded (code : ℕ) (scale : ℤ) : ∃ num den : ℕ, Gridded code scale num den := by
  have power (l : ℕ) : 0 < Nat.pow 2 l := Nat.two_pow_pos l
  rcases Int.lt_or_le scale 0 with below | above
  · refine ⟨_, _, if_neg (Int.not_le.2 below), power _, ?_⟩
    obtain ⟨k, hk⟩ := Int.eq_ofNat_of_zero_le (a := -scale) (by omega)
    obtain rfl : scale = -k := by omega
    rw [hk, Int.toNat_natCast, zpow_neg, zpow_natCast, Nat.pow_eq, Nat.pow_eq, doubleValue]
    push_cast
    field_simp
  · refine ⟨_, _, if_pos above, Nat.mul_pos (power _) (Nat.pow_pos (by decide)), ?_⟩
    obtain ⟨k, rfl⟩ := Int.eq_ofNat_of_zero_le above
    rw [Int.toNat_natCast, zpow_natCast, Nat.pow_eq, Nat.pow_eq, doubleValue]
    push_cast
    field_simp

theorem ten_zpow_pos (scale : ℤ) : (0 : ℚ) < 10 ^ scale := zpow_pos (by norm_num) _

namespace Gridded
variable (g : Gridded code scale num den)
include g

/-- How far a decimal of the scale is from the number, counted in its last place. -/
theorem distance (m : ℕ) : |(⟨m, scale⟩ : Decimal).value - doubleValue code| =
    |(m : ℚ) - num / den| * 10 ^ scale := by
  rw [Decimal.value, g.value, ← sub_mul, abs_mul, abs_of_pos (ten_zpow_pos scale)]

theorem below_le : (⟨num / den, scale⟩ : Decimal).value ≤ doubleValue code := by
  rw [Decimal.value, g.value]
  exact mul_le_mul_of_nonneg_right (div_bounds num den).1 (ten_zpow_pos scale).le

theorem le_above : doubleValue code ≤ (⟨num / den + 1, scale⟩ : Decimal).value := by
  rw [Decimal.value, g.value]
  refine mul_le_mul_of_nonneg_right ?_ (ten_zpow_pos scale).le
  exact_mod_cast (div_bounds num den).2.le

/-- Where a decimal of the grid is read as the double, so is a neighbour of the double that is no
farther from it. -/
theorem exists_neighbour (hc : code ≤ binary64.infinity)
    (same : (⟨m, scale⟩ : Decimal).nearest = code) :
    ∃ n, (n = num / den ∨ n = num / den + 1) ∧ (⟨n, scale⟩ : Decimal).nearest = code ∧
      |(⟨n, scale⟩ : Decimal).value - doubleValue code| ≤
        |(⟨m, scale⟩ : Decimal).value - doubleValue code| := by
  have grows {m n : ℕ} (h : m ≤ n) : (⟨m, scale⟩ : Decimal).value ≤ (⟨n, scale⟩ : Decimal).value :=
    mul_le_mul_of_nonneg_right (Nat.cast_le.2 h) (ten_zpow_pos scale).le
  suffices ∃ n, (n = num / den ∨ n = num / den + 1) ∧ (⟨n, scale⟩ : Decimal).value ∈
      Set.uIcc (doubleValue code) (⟨m, scale⟩ : Decimal).value by
    obtain ⟨n, neighbour, between⟩ := this
    exact ⟨n, neighbour, Decimal.nearest_of_between hc same between,
      Set.abs_sub_left_of_mem_uIcc between⟩
  rcases Nat.lt_or_ge (num / den) m with above | below
  · exact ⟨_, .inr rfl, Set.mem_uIcc.2 (.inl ⟨g.le_above, grows above⟩)⟩
  · exact ⟨_, .inl rfl, Set.mem_uIcc.2 (.inr ⟨grows below, g.below_le⟩)⟩

end Gridded

/-- The decimal is found on a grid: it is no more than a step above the value, and of the decimals on
the grid that are read as the double none is nearer. -/
structure Hit (code : ℕ) (grid : ℤ) (d : Decimal) : Prop where
  scale : d.scale = grid
  step : (d.digits - 1 : ℚ) * 10 ^ grid ≤ doubleValue code
  nearest : ∀ m, (⟨m, grid⟩ : Decimal).nearest = code →
    |d.value - doubleValue code| ≤ |(⟨m, grid⟩ : Decimal).value - doubleValue code|

/-- A grid has a hit when one of its decimals is read as the double. -/
theorem exists_onGrid? (hc : code ≤ binary64.infinity)
    (same : (⟨m, scale⟩ : Decimal).nearest = code) : ∃ d, onGrid? code scale = some d := by
  obtain ⟨num, den, g⟩ := exists_gridded code scale
  obtain ⟨n, neighbour, reads, -⟩ := g.exists_neighbour hc same
  rw [← readsBack_iff] at reads
  unfold onGrid?
  rw [g.eq]
  dsimp only
  split
  · exact ⟨_, rfl⟩
  · exact ⟨_, rfl⟩
  · exact ⟨_, rfl⟩
  · rcases neighbour with rfl | rfl <;> simp_all

/-- A decimal that is found at a scale is a hit there. -/
theorem hit_of_onGrid? (hc : code ≤ binary64.infinity) (h : onGrid? code scale = some d) :
    Hit code scale d := by
  obtain ⟨num, den, g⟩ := exists_gridded code scale
  unfold onGrid? at h
  rw [g.eq] at h
  dsimp only at h
  have step {n : ℕ} (le : n ≤ num / den + 1) : ((n : ℚ) - 1) * 10 ^ scale ≤ doubleValue code := by
    refine le_trans (mul_le_mul_of_nonneg_right ?_ (ten_zpow_pos scale).le) g.below_le
    have : (n : ℚ) ≤ (num / den : ℕ) + 1 := by exact_mod_cast le
    linarith
  split at h
  · -- both neighbours are read as the double, and the value is rounded to the nearer one
    cases h
    refine ⟨rfl, step (roundQuotient_bounds num den).2, fun m _ => ?_⟩
    rw [g.distance, g.distance]
    exact mul_le_mul_of_nonneg_right (nearest_of_half (roundQuotient_close g.pos))
      (ten_zpow_pos scale).le
  · rename_i other
    cases h
    refine ⟨rfl, step (Nat.le_succ _), fun m same => ?_⟩
    obtain ⟨n, rfl | rfl, reads, nearer⟩ := g.exists_neighbour hc same
    · exact nearer
    · rw [readsBack_iff.2 reads] at other
      cases other
  · rename_i other _
    cases h
    refine ⟨rfl, step (Nat.le_refl _), fun m same => ?_⟩
    obtain ⟨n, rfl | rfl, reads, nearer⟩ := g.exists_neighbour hc same
    · rw [readsBack_iff.2 reads] at other
      cases other
    · exact nearer
  · cases h

/-! ### The search for a grid -/

/-- The number of digits bounds a number from both sides. -/
theorem toDigits_bounds {n : ℕ} (h : 0 < n) :
    10 ^ ((Nat.toDigits 10 n).length - 1) ≤ n ∧ n < 10 ^ (Nat.toDigits 10 n).length := by
  refine ⟨?_, (Nat.length_toDigits_le_iff (by decide) Nat.length_toDigits_pos).1 (Nat.le_refl _)⟩
  rcases Nat.eq_zero_or_pos ((Nat.toDigits 10 n).length - 1) with one | more
  · rw [one]
    exact h
  · refine Nat.not_lt.1 fun less => ?_
    have := (Nat.length_toDigits_le_iff (by decide) more).2 less
    omega

/-- The magnitude of a double tells the powers of ten that it lies between. -/
theorem magnitude_bounds (h0 : 0 < code) :
    (10 : ℚ) ^ (magnitude code - 1) ≤ doubleValue code ∧
      doubleValue code < 10 ^ magnitude code := by
  have whole : 0 < binary64.units code * 10 ^ reach / 2 ^ binary64.least := by
    have units : 1 ≤ binary64.units code :=
      (Nat.zero_le _).trans_lt (binary64.units_strictMono h0)
    have reaches : 2 ^ binary64.least ≤ 10 ^ reach := by decide +kernel
    exact Nat.div_pos (reaches.trans (Nat.le_mul_of_pos_left _ units)) (Nat.two_pow_pos _)
  obtain ⟨lower, upper⟩ := toDigits_bounds whole
  have scaled : doubleValue code * 10 ^ reach =
      ((binary64.units code * 10 ^ reach : ℕ) : ℚ) / ((2 ^ binary64.least : ℕ) : ℚ) := by
    rw [doubleValue]
    push_cast
    ring
  obtain ⟨below, above⟩ := div_bounds (binary64.units code * 10 ^ reach) (2 ^ binary64.least)
  rw [← scaled] at below above
  have ten : (10 : ℚ) ≠ 0 := by norm_num
  have pos : (0 : ℚ) < 10 ^ reach := pow_pos (by norm_num) _
  have positive := Nat.length_toDigits_pos (b := 10)
    (n := binary64.units code * 10 ^ reach / 2 ^ binary64.least)
  unfold magnitude
  rw [Nat.pow_eq, Nat.pow_eq]
  generalize binary64.units code * 10 ^ reach / 2 ^ binary64.least = w at *
  generalize (Nat.toDigits 10 w).length = digits at *
  constructor
  · rw [show (digits : ℤ) - reach - 1 = (digits - 1 : ℕ) - reach by omega, zpow_sub₀ ten,
      zpow_natCast, zpow_natCast, div_le_iff₀ pos]
    have : (10 : ℚ) ^ (digits - 1) ≤ w := by exact_mod_cast lower
    linarith
  · rw [zpow_sub₀ ten, zpow_natCast, zpow_natCast, lt_div_iff₀ pos]
    have : (w : ℚ) + 1 ≤ 10 ^ digits := by exact_mod_cast upper
    linarith

/-- The search ends at the first grid that has a hit. -/
theorem search_of_hit {magnitude : ℤ} {k : ℕ} (hit : ∃ d, onGrid? code (magnitude - k) = some d) :
    ∀ tries first : ℕ, first ≤ k → k < first + tries →
      ∃ j d, search code magnitude tries first = some d ∧ first ≤ j ∧ j ≤ k ∧
        onGrid? code (magnitude - j) = some d ∧
        ∀ i, first ≤ i → i < j → onGrid? code (magnitude - i) = none
  | 0, _, low, high => absurd high (by omega)
  | tries + 1, first, low, high => by
    unfold search
    cases found : onGrid? code (magnitude - first) with
    | some d => exact ⟨first, d, rfl, Nat.le_refl _, low, found, fun i _ _ => by omega⟩
    | none =>
      have later : first + 1 ≤ k := by
        refine Nat.lt_of_le_of_ne low ?_
        rintro rfl
        obtain ⟨d, hd⟩ := hit
        rw [found] at hd
        cases hd
      obtain ⟨j, d, search, above, le, there, before⟩ :=
        search_of_hit hit tries (first + 1) later (by omega)
      refine ⟨j, d, search, by omega, le, there, fun i hi hij => ?_⟩
      rcases Nat.eq_or_lt_of_le hi with rfl | hi
      · exact found
      · exact before i hi hij

/-- On the grid of seventeen digits the nearest decimal is read as the double. -/
theorem exists_seventeen (h0 : 0 < code) (hc : code ≤ binary64.infinity) :
    ∃ d, onGrid? code (magnitude code - 17) = some d := by
  obtain ⟨num, den, g⟩ := exists_gridded code (magnitude code - 17)
  refine exists_onGrid? (m := roundQuotient num den) hc (Decimal.nearest_of_close h0 hc ?_)
  obtain ⟨lower, -⟩ := magnitude_bounds h0
  rw [show magnitude code - 1 = (16 : ℕ) + (magnitude code - 17) by push_cast; ring,
    zpow_add₀ (by norm_num), zpow_natCast] at lower
  rw [g.distance]
  have close : |(roundQuotient num den : ℚ) - num / den| ≤ 1 / 2 := roundQuotient_close g.pos
  have half := mul_le_mul_of_nonneg_right close (ten_zpow_pos (magnitude code - 17)).le
  linarith

end Shortest

/-! ### Digits -/

namespace Decimal

/-- A decimal is its mantissa, with the point where it is shown. -/
theorem value_eq_shown (d : Decimal) : d.value = d.mantissa * 10 ^ (d.point - d.shown.length) := by
  obtain ⟨k, digits, point⟩ := d.exists_mantissa
  rw [Decimal.value, digits, point, zpow_add₀ (by norm_num), zpow_natCast]
  push_cast
  ring

theorem length_shown_pos {d : Decimal} (h : d.nearest ≠ 0) : 0 < d.shown.length :=
  List.length_pos_of_ne_nil (shown_ne_nil (digits_pos h))

/-- A power of ten is one and zeros. -/
theorem toDigits_pow (n : ℕ) : Nat.toDigits 10 (10 ^ n) = '1' :: List.replicate n '0' := by
  induction n with
  | zero => rfl
  | succ n ih =>
    have split := Nat.toDigits_append_toDigits (b := 10) (d := 0) (by decide)
      (Nat.pow_pos (by decide) : 0 < 10 ^ n) (by decide)
    rw [Nat.add_zero, ← Nat.pow_succ', ih] at split
    rw [← split, List.replicate_succ']
    rfl

/-- Digits up to a power of ten are shown as no more digits than it has zeros. -/
theorem length_shown_le {d : Decimal} {n : ℕ} (hn : 0 < n) (h : d.digits ≤ 10 ^ n) :
    d.shown.length ≤ n := by
  rcases Nat.lt_or_eq_of_le h with less | equal
  · have := (Nat.length_toDigits_le_iff (b := 10) (by decide) hn).2 less
    obtain ⟨k, hk⟩ := d.exists_zeros
    rw [hk, List.length_append] at this
    omega
  · have one : d.shown = ['1'] := by
      rw [shown, equal, toDigits_pow, List.reverse_cons, List.reverse_replicate, List.dropWhile_append,
        List.dropWhile_replicate]
      rfl
    rw [one]
    exact hn

/-- A decimal is below the power of ten where its point is. -/
theorem value_shown_lt (d : Decimal) : d.value < 10 ^ d.point := by
  have digits : (d.mantissa : ℚ) < 10 ^ d.shown.length := by
    exact_mod_cast Numeral.ofDigitChars_lt d.isDigit_of_mem_shown
  have scale := Shortest.ten_zpow_pos (d.point - d.shown.length)
  calc d.value = d.mantissa * 10 ^ (d.point - d.shown.length) := d.value_eq_shown
    _ < 10 ^ d.shown.length * 10 ^ (d.point - d.shown.length) := mul_lt_mul_of_pos_right digits scale
    _ = 10 ^ d.point := by
      rw [← zpow_natCast, ← zpow_add₀ (by norm_num), add_sub_cancel]

end Decimal

/-! ### The shortest decimal -/

namespace Shortest
variable {d : Decimal}

/-- Where a decimal of so many digits is read as a double, so is one on the grid of so many digits
that is no farther from it. -/
theorem exists_of_shown (h0 : 0 < code) (hc : code ≤ binary64.infinity) (same : d.nearest = code) :
    ∃ m, (⟨m, magnitude code - d.shown.length⟩ : Decimal).nearest = code ∧
      |(⟨m, magnitude code - d.shown.length⟩ : Decimal).value - doubleValue code| ≤
        |d.value - doubleValue code| := by
  have shown : 0 < d.shown.length := Decimal.length_shown_pos (same ▸ h0.ne')
  rcases Int.lt_or_le d.point (magnitude code) with below | above
  · -- the first decimal of the grid lies between the two
    suffices (⟨10 ^ (d.shown.length - 1), magnitude code - d.shown.length⟩ : Decimal).value ∈
        Set.uIcc (doubleValue code) d.value from
      ⟨_, Decimal.nearest_of_between hc same this, Set.abs_sub_left_of_mem_uIcc this⟩
    have first : (⟨10 ^ (d.shown.length - 1), magnitude code - d.shown.length⟩ : Decimal).value =
        10 ^ (magnitude code - 1) := by
      rw [Decimal.value]
      push_cast
      rw [← zpow_natCast, ← zpow_add₀ (by norm_num)]
      congr 1
      omega
    rw [first]
    refine Set.mem_uIcc.2 (.inr ⟨?_, (magnitude_bounds h0).1⟩)
    exact d.value_shown_lt.le.trans (zpow_le_zpow_right₀ (by norm_num) (by omega))
  · obtain ⟨k, hk⟩ := Int.eq_ofNat_of_zero_le (Int.sub_nonneg_of_le above)
    have scale : magnitude code - d.shown.length + k = d.point - d.shown.length := by omega
    refine ⟨d.mantissa * 10 ^ k, ?_, le_of_eq ?_⟩
    · rw [Decimal.nearest_shift, scale, ← Decimal.nearest_eq_shown, same]
    · rw [d.value_eq_shown, ← scale, zpow_add₀ (by norm_num), zpow_natCast, Decimal.value]
      push_cast
      congr 2
      ring

/-- The shortest decimal is a hit on the first grid that has one. -/
theorem exists_hit (h0 : 0 < code) (hc : code ≤ binary64.infinity) :
    ∃ j : ℕ, 0 < j ∧ Hit code (magnitude code - j) (decimal code) ∧
      ∀ i : ℕ, 0 < i → i < j → onGrid? code (magnitude code - i) = none := by
  obtain ⟨j, d, found, pos, -, hit, before⟩ :=
    search_of_hit (exists_seventeen h0 hc) 17 1 (by decide) (by decide)
  have eq : decimal code = d := by
    rw [decimal_eq]
    beta_reduce
    rw [found]
  exact ⟨j, pos, eq ▸ hit_of_onGrid? hc hit, before⟩

/-- A hit on the grid of so many digits shows no more. -/
theorem Hit.length_shown_le {j : ℕ} (hit : Hit code (magnitude code - j) d) (h0 : 0 < code)
    (pos : 0 < j) : d.shown.length ≤ j := by
  have split : (10 : ℚ) ^ magnitude code = 10 ^ j * 10 ^ (magnitude code - j) := by
    rw [← zpow_natCast, ← zpow_add₀ (by norm_num), add_sub_cancel]
  have step := hit.step.trans_lt (magnitude_bounds h0).2
  rw [split] at step
  have digits : (d.digits : ℚ) - 1 < 10 ^ j := lt_of_mul_lt_mul_right step (ten_zpow_pos _).le
  have : (d.digits : ℚ) < (10 ^ j + 1 : ℕ) := by
    push_cast
    linarith
  exact Decimal.length_shown_le pos (Nat.lt_succ_iff.1 (by exact_mod_cast this))

/-- The shortest decimal shows no more digits than any other decimal that is read as the same double,
and none of those that show as many is nearer to it. -/
theorem decimal_shortest (h0 : 0 < code) (hc : code ≤ binary64.infinity) (same : d.nearest = code) :
    (decimal code).shown.length ≤ d.shown.length ∧
      (d.shown.length = (decimal code).shown.length →
        |(decimal code).value - doubleValue code| ≤ |d.value - doubleValue code|) := by
  obtain ⟨j, pos, hit, before⟩ := exists_hit h0 hc
  obtain ⟨m, reads, nearer⟩ := exists_of_shown h0 hc same
  have shown : 0 < d.shown.length := Decimal.length_shown_pos (same ▸ h0.ne')
  have least : j ≤ d.shown.length := by
    refine Nat.not_lt.1 fun less => ?_
    obtain ⟨e, found⟩ := exists_onGrid? hc reads
    rw [before _ shown less] at found
    cases found
  have most := hit.length_shown_le h0 pos
  refine ⟨most.trans least, fun equal => ?_⟩
  rw [show d.shown.length = j by omega] at reads nearer
  exact (hit.nearest m reads).trans nearer

end Shortest

end SolidScript.Number
