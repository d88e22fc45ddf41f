import SolidScript.Proofs.Number.Decimal

/-!
# Number — rounding keeps order

A fraction that is no less is rounded to no less.  Within a binade this is so of quotients, whichever
way a half is rounded; between two binades lies the code of the first value of the second, which the
one does not get past and the other does not fall below.

The way of a numeral to single precision is two roundings, with what is beyond the doubles infinite
in between.  Each keeps order and leaves a value of single precision as it is, so both together do,
and no more is needed of them than that.

* `Format.nearest_mono`: rounding to a format keeps order.
* `Format.units_strictMono`: greater codes stand for greater values.
* `Numeral.toSingle_nearest_mono`, `Numeral.toSingle_nearest_of_units`: so do both roundings, and they
  leave the values of single precision as they are.
-/

namespace SolidScript.Number

variable {num den num' den' : Nat}

/-! ### Quotients -/

/-- A quotient is rounded to at most `n` when it lies below the middle between `n` and the integer
above, or in the middle and `n` is even. -/
theorem roundQuotient_le_iff (hd : 0 < den) {n : Nat} :
    roundQuotient num den ≤ n ↔
      2 * num < (2 * n + 1) * den ∨ 2 * num = (2 * n + 1) * den ∧ n % 2 = 0 := by
  obtain ⟨lower, upper⟩ := roundQuotient_bounds num den
  have whole := Nat.div_add_mod num den
  have remainder := Nat.mod_lt num hd
  have middle : (2 * n + 1) * den = 2 * (den * n) + den := by ring
  rcases Nat.lt_trichotomy (num / den) n with below | equal | above
  · have : den * (num / den + 1) ≤ den * n := Nat.mul_le_mul_left _ below
    rw [Nat.mul_add, Nat.mul_one] at this
    exact iff_of_true (upper.trans below) (.inl (by omega))
  · rw [← equal] at middle ⊢
    unfold roundQuotient
    dsimp only
    split
    · omega
    · split <;> omega
  · have : den * (n + 1) ≤ den * (num / den) := Nat.mul_le_mul_left _ above
    rw [Nat.mul_add, Nat.mul_one] at this
    exact iff_of_false (Nat.not_le.2 (above.trans_le lower)) (by omega)

/-- A quotient that is no less is rounded to no less. -/
theorem roundQuotient_mono (hd : 0 < den) (hd' : 0 < den') (h : num * den' ≤ num' * den) :
    roundQuotient num den ≤ roundQuotient num' den' := by
  rw [roundQuotient_le_iff hd]
  have bound := (roundQuotient_le_iff hd').1 (Nat.le_refl (roundQuotient num' den'))
  generalize roundQuotient num' den' = n at bound
  have scaled : 2 * num * den' ≤ 2 * num' * den := by
    rw [Nat.mul_assoc, Nat.mul_assoc]
    exact Nat.mul_le_mul_left 2 h
  have swap : (2 * n + 1) * den' * den = (2 * n + 1) * den * den' := Nat.mul_right_comm ..
  rcases bound with below | ⟨half, even⟩
  · refine .inl (Nat.lt_of_mul_lt_mul_right (a := den') ?_)
    calc 2 * num * den' ≤ 2 * num' * den := scaled
      _ < (2 * n + 1) * den' * den := Nat.mul_lt_mul_of_pos_right below hd
      _ = (2 * n + 1) * den * den' := swap
  · have le : 2 * num ≤ (2 * n + 1) * den := by
      refine Nat.le_of_mul_le_mul_right ?_ hd'
      calc 2 * num * den' ≤ 2 * num' * den := scaled
        _ = (2 * n + 1) * den * den' := by rw [half, swap]
    exact (Nat.lt_or_eq_of_le le).imp_right fun equal => ⟨equal, even⟩

namespace Format
variable {f : Format}

/-! ### Binades -/

/-- Without its excess digits a value is less than two binades. -/
theorem lt_of_excess (hp : 0 < f.precision) (whole : Nat) :
    whole < 2 * f.binade * 2 ^ f.excess whole := by
  rw [two_mul_binade hp, ← Nat.pow_add]
  calc whole < 2 ^ (whole.log2 + 1) := Nat.lt_log2_self
    _ ≤ 2 ^ (f.precision + f.excess whole) :=
      Nat.pow_le_pow_right (by decide) (by unfold excess; omega)

/-- With excess digits it is at least one. -/
theorem le_of_excess (hp : 0 < f.precision) {whole : Nat} (h : 0 < f.excess whole) :
    f.binade * 2 ^ f.excess whole ≤ whole := by
  have digits : f.precision - 1 + f.excess whole ≤ whole.log2 := by
    unfold excess at h ⊢
    omega
  have nonzero : whole ≠ 0 := by
    rintro rfl
    rw [Nat.log2_zero] at digits
    omega
  unfold binade
  rw [Nat.pow_eq, ← Nat.pow_add]
  exact (Nat.pow_le_pow_right (by decide) digits).trans (Nat.log2_self_le nonzero)

theorem excess_mono (hp : 0 < f.precision) {m n : Nat} (h : m ≤ n) : f.excess m ≤ f.excess n := by
  by_contra less
  rw [Nat.not_le] at less
  have lower := le_of_excess hp (Nat.zero_lt_of_lt less)
  have upper := lt_of_excess hp n
  have power : 2 * f.binade * 2 ^ f.excess n ≤ f.binade * 2 ^ f.excess m := by
    rw [Nat.mul_comm 2, Nat.mul_assoc, ← Nat.pow_succ']
    exact Nat.mul_le_mul_left _ (Nat.pow_le_pow_right (by decide) less)
  omega

/-- A fraction that is no less is rounded to no less. -/
theorem nearest_mono (hp : 0 < f.precision) (hd : 0 < den) (hd' : 0 < den')
    (h : num * den' ≤ num' * den) : f.nearest num den ≤ f.nearest num' den' := by
  have scaled : num * 2 ^ f.least * den' ≤ num' * 2 ^ f.least * den := by
    rw [Nat.mul_right_comm, Nat.mul_right_comm num']
    exact Nat.mul_le_mul_right _ h
  rw [nearest_eq, nearest_eq]
  generalize num * 2 ^ f.least = a at scaled
  generalize num' * 2 ^ f.least = b at scaled
  refine min_le_min_left _ ?_
  have wholes : a / den ≤ b / den' := by
    rw [Nat.le_div_iff_mul_le hd']
    refine Nat.le_of_mul_le_mul_right ?_ hd
    calc a / den * den' * den = a / den * den * den' := Nat.mul_right_comm ..
      _ ≤ a * den' := Nat.mul_le_mul_right _ (Nat.div_mul_le_self ..)
      _ ≤ b * den := scaled
  have pow (e : Nat) : 0 < 2 ^ e := Nat.two_pow_pos e
  rcases Nat.eq_or_lt_of_le (excess_mono hp wholes) with same | less
  · rw [← same]
    refine Nat.add_le_add_left (roundQuotient_mono (Nat.mul_pos hd (pow _)) (Nat.mul_pos hd' (pow _)) ?_) _
    rw [← Nat.mul_assoc, ← Nat.mul_assoc]
    exact Nat.mul_le_mul_right _ scaled
  · -- the first value of the greater binade lies between
    have upper := lt_of_excess hp (a / den)
    have lower := le_of_excess hp (Nat.zero_lt_of_lt less)
    generalize f.excess (a / den) = d at less upper
    generalize f.excess (b / den') = e at less lower
    have top : roundQuotient a (den * 2 ^ d) ≤ 2 * f.binade := by
      refine (roundQuotient_bounds _ _).2.trans ?_
      rw [← Nat.div_div_eq_div_mul]
      exact Nat.div_lt_of_lt_mul (by rwa [Nat.mul_comm])
    have bottom : f.binade ≤ roundQuotient b (den' * 2 ^ e) := by
      refine le_trans ?_ (roundQuotient_bounds _ _).1
      rw [← Nat.div_div_eq_div_mul]
      exact (Nat.le_div_iff_mul_le (pow e)).2 lower
    calc d * f.binade + roundQuotient a (den * 2 ^ d)
        ≤ d * f.binade + 2 * f.binade := Nat.add_le_add_left top _
      _ = (d + 1) * f.binade + f.binade := by ring
      _ ≤ e * f.binade + f.binade := Nat.add_le_add_right (Nat.mul_le_mul_right _ less) _
      _ ≤ e * f.binade + roundQuotient b (den' * 2 ^ e) := Nat.add_le_add_left bottom _

/-- A value and the next one are neighbouring significands times the same power of two. -/
theorem exists_significand (f : Format) (code : Nat) :
    ∃ e m, code = e * f.binade + m ∧ m < 2 * f.binade ∧ (e = 0 ∨ f.binade ≤ m) ∧
      f.units code = m * 2 ^ e ∧ f.units (code + 1) = (m + 1) * 2 ^ e := by
  have hb := f.binade_pos
  rcases f.code_cases code with low | ⟨e, m, rfl, hm, hm'⟩
  · refine ⟨0, code, by omega, by omega, .inl rfl, by rw [units_of_lt_binade low]; omega, ?_⟩
    rcases Nat.lt_or_eq_of_le (Nat.succ_le_of_lt low) with low' | first
    · rw [units_of_lt_binade low']
      omega
    · have next := units_of_significand (f := f) (e := 0) (m := f.binade) (Nat.le_refl _) (by omega)
      rw [Nat.zero_mul, Nat.zero_add] at next
      rw [show code + 1 = f.binade from first, next]
  · refine ⟨e, m, rfl, hm', .inr hm, units_of_significand hm hm', ?_⟩
    rcases Nat.lt_or_eq_of_le (Nat.succ_le_of_lt hm') with inside | last
    · exact units_of_significand (Nat.le_succ_of_le hm) inside
    · -- behind the last significand comes the first, with the next power of two
      have code : e * f.binade + m + 1 = (e + 1) * f.binade + f.binade := by
        rw [Nat.add_assoc, show m + 1 = 2 * f.binade from last]
        ring
      rw [code, units_of_significand (Nat.le_refl _) (by omega),
        show m + 1 = 2 * f.binade from last]
      ring

/-- Greater codes stand for greater values. -/
theorem units_strictMono (f : Format) : StrictMono f.units := by
  refine strictMono_nat_of_lt_succ fun code => ?_
  obtain ⟨e, m, -, -, -, value, next⟩ := f.exists_significand code
  rw [value, next]
  exact Nat.mul_lt_mul_of_pos_right (Nat.lt_succ_self m) (Nat.two_pow_pos e)

end Format

/-! ### Two roundings -/

namespace Numeral
open Format

theorem toSingle_le (code : Nat) : toSingle code ≤ binary32.infinity := by
  unfold toSingle
  split
  · exact Nat.le_refl _
  · exact nearest_le_infinity ..

theorem toSingle_mono {c d : Nat} (h : c ≤ d) : toSingle c ≤ toSingle d := by
  rcases Nat.lt_or_ge d binary64.infinity with finite | infinite
  · have keeps (k : Nat) : binary32.nearest (binary64.units c) (Nat.pow 2 k) ≤
        binary32.nearest (binary64.units d) (Nat.pow 2 k) :=
      nearest_mono (by decide) (Nat.two_pow_pos k) (Nat.two_pow_pos k)
        (Nat.mul_le_mul_right _ (binary64.units_strictMono.monotone h))
    rw [toSingle, toSingle, if_neg (Nat.not_le.2 (h.trans_lt finite)), if_neg (Nat.not_le.2 finite)]
    exact keeps binary64.least
  · rw [toSingle.eq_def d, if_pos infinite]
    exact toSingle_le c

/-- Both roundings together keep order. -/
theorem toSingle_nearest_mono (hd : 0 < den) (hd' : 0 < den') (h : num * den' ≤ num' * den) :
    toSingle (binary64.nearest num den) ≤ toSingle (binary64.nearest num' den') :=
  toSingle_mono (nearest_mono (by decide) hd hd' h)

/-- They leave a value of single precision as it is. -/
theorem toSingle_nearest_of_units (hd : 0 < den) {c : Nat} (hc : c < binary32.infinity)
    (h : num * 2 ^ binary32.least = binary32.units c * den) :
    toSingle (binary64.nearest num den) = c := by
  obtain ⟨value, finite⟩ := ofSingle_units hc
  have exact : num * 2 ^ binary64.least = binary64.units (ofSingle c) * den := by
    refine Nat.eq_of_mul_eq_mul_right (Nat.two_pow_pos binary32.least) ?_
    calc num * 2 ^ binary64.least * 2 ^ binary32.least
        = binary32.units c * 2 ^ binary64.least * den := by
          rw [Nat.mul_right_comm, h, Nat.mul_right_comm]
      _ = binary64.units (ofSingle c) * den * 2 ^ binary32.least := by
          rw [← value, Nat.mul_right_comm]
  rw [nearest_of_units (by decide) hd finite.le exact, toSingle_ofSingle hc.le]

end Numeral

end SolidScript.Number
