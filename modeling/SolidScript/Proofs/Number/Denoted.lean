import Mathlib.Algebra.Order.Field.Rat
import Mathlib.Tactic.FieldSimp
import SolidScript.Proofs.Number.Printed

/-!
# Number — the value that a numeral spells

A numeral is a decimal, and its exact value is a rational number.  It is told by the text alone: the
digits before the point, those behind it, each counting a tenth of the one before, and a power of
ten.  A text has a value when it is a numeral (`exists_denotes_iff`) and then has one
(`Denotes.unique`), and the parts that a numeral is taken into have the same
(`Denotes.eq_mantissa`).

* `Numeral.Denotes`: the text is a numeral of this value.
* `Denotes.exists_fraction`: what is rounded is a fraction of that value.
-/

namespace SolidScript.Number
open Format
open Lexeme (IsDigits IsExponent IsPointed)
open Text (isDigit)

/-- The value of digits. -/
def natural (digits : Text) : Nat := Nat.ofDigitChars 10 digits 0

theorem natural_append (ds fs : Text) :
    natural (ds ++ fs) = natural ds * 10 ^ fs.length + natural fs := by
  unfold natural
  rw [Nat.ofDigitChars_append, Nat.ofDigitChars_eq_ofDigitChars_zero, Nat.mul_comm]

namespace Numeral

/-- Digits with or without a point, and their value. -/
inductive Body : Text → ℚ → Prop where
  | whole {ds : Text} (digits : IsDigits ds) : Body ds (natural ds)
  | pointed {ds fs : Text} (before : ∀ c ∈ ds, isDigit c = true)
      (behind : ∀ c ∈ fs, isDigit c = true) (some : ds ≠ [] ∨ fs ≠ []) :
      Body (ds ++ '.' :: fs) (natural ds + natural fs / 10 ^ fs.length)

/-- An exponent, perhaps none, and the power of ten that it names. -/
inductive Power : Text → ℤ → Prop where
  | none : Power [] 0
  | unsigned {c : Char} {ds : Text} (mark : isExponentMark c = true) (digits : IsDigits ds) :
      Power (c :: ds) (natural ds)
  | plus {c : Char} {ds : Text} (mark : isExponentMark c = true) (digits : IsDigits ds) :
      Power (c :: '+' :: ds) (natural ds)
  | minus {c : Char} {ds : Text} (mark : isExponentMark c = true) (digits : IsDigits ds) :
      Power (c :: '-' :: ds) (-natural ds)

/-- The text is a numeral of this value. -/
def Denotes (t : Text) (q : ℚ) : Prop :=
  ∃ b x v e, t = b ++ x ∧ Body b v ∧ Power x e ∧ q = v * 10 ^ e

variable {t b x : Text} {v q : ℚ} {e : ℤ}

/-! ### Numerals have values -/

theorem exists_body_iff : (∃ v, Body b v) ↔ IsPointed b ∨ IsDigits b := by
  constructor
  · rintro ⟨v, whole | ⟨before, behind, some⟩⟩
    · exact .inr ‹_›
    · exact .inl ⟨_, _, rfl, before, behind, some⟩
  · rintro (⟨ds, fs, rfl, before, behind, some⟩ | digits)
    · exact ⟨_, .pointed before behind some⟩
    · exact ⟨_, .whole digits⟩

theorem exists_power_iff : (∃ e, Power x e) ↔ x = [] ∨ IsExponent x := by
  constructor
  · rintro ⟨e, h⟩
    cases h with
    | none => exact .inl rfl
    | @unsigned c ds mark digits =>
      exact .inr ⟨c, [], ds, rfl, mark, .inl rfl, digits.1, digits.2⟩
    | @plus c ds mark digits =>
      exact .inr ⟨c, ['+'], ds, rfl, mark, .inr ⟨'+', rfl, by decide⟩, digits.1, digits.2⟩
    | @minus c ds mark digits =>
      exact .inr ⟨c, ['-'], ds, rfl, mark, .inr ⟨'-', rfl, by decide⟩, digits.1, digits.2⟩
  · rintro (rfl | ⟨c, s, ds, rfl, mark, rfl | ⟨g, rfl, sign⟩, ne, digits⟩)
    · exact ⟨0, .none⟩
    · exact ⟨_, .unsigned mark ⟨ne, digits⟩⟩
    · rcases (by simpa [isSign] using sign : g = '+' ∨ g = '-') with rfl | rfl
      · exact ⟨_, .plus mark ⟨ne, digits⟩⟩
      · exact ⟨_, .minus mark ⟨ne, digits⟩⟩

/-- The numerals are the texts that have a value. -/
theorem exists_denotes_iff : (∃ q, Denotes t q) ↔ Spelling.number.Spells t := by
  rw [Lexeme.spells_number_iff]
  constructor
  · rintro ⟨q, b, x, v, e, rfl, body, power, -⟩
    exact ⟨b, x, rfl, exists_body_iff.1 ⟨v, body⟩, exists_power_iff.1 ⟨e, power⟩⟩
  · rintro ⟨b, x, rfl, hb, hx⟩
    obtain ⟨v, body⟩ := exists_body_iff.2 hb
    obtain ⟨e, power⟩ := exists_power_iff.2 hx
    exact ⟨_, b, x, v, e, rfl, body, power, rfl⟩

/-- Nothing but a numeral is read. -/
theorem read?_eq_none_iff : read? t = none ↔ ¬ Spelling.number.Spells t := by
  constructor
  · intro unread spells
    rw [read?_of_spells spells] at unread
    cases unread
  · intro other
    by_contra some
    have whole := read?_isSome_iff.1 (Option.isSome_iff_ne_none.2 some)
    exact other (Lexeme.finds_number.spells whole).2

/-! ### The parts of a numeral -/

theorem Power.exponentOf_eq (h : Power x e) : exponentOf x = e := by
  cases h with
  | none => rfl
  | @unsigned c ds mark digits =>
    -- the digits do not start with a sign
    have digit : ∀ d ∈ ds.head?, isDigit d = true := fun d hd => digits.2 d (List.mem_of_mem_head? hd)
    unfold exponentOf
    split
    · rename_i he
      cases he
    · rename_i he
      cases he
      exact absurd (digit '-' rfl) (by decide)
    · rename_i he
      cases he
      exact absurd (digit '+' rfl) (by decide)
    · rename_i he
      cases he
      rfl
  | plus | minus => rfl

/-- Behind the digits there is no digit and no point. -/
theorem Power.head (h : Power x e) : ∀ c ∈ x.head?, isDigit c = false ∧ c ≠ '.' := by
  have of_mark {c : Char} (mark : isExponentMark c = true) : isDigit c = false ∧ c ≠ '.' := by
    refine ⟨Lexeme.not_isDigit_of_isExponentMark mark, ?_⟩
    rintro rfl
    exact absurd mark (by decide)
  cases h with
  | none => exact fun c hc => by cases hc
  | unsigned mark | plus mark | minus mark =>
    rintro _ ⟨⟩
    exact of_mark mark

/-- The parts of a text are digits, and with the exponent they make up the value. -/
theorem ofText_of_body (body : Body b v) (power : Power x e) :
    (∀ c ∈ (ofText (b ++ x)).whole ++ (ofText (b ++ x)).fraction, isDigit c = true) ∧
      (ofText (b ++ x)).exponent = e ∧
      v = (ofText (b ++ x)).mantissa / 10 ^ (ofText (b ++ x)).fraction.length := by
  have head := power.head
  cases body with
  | whole digits =>
    obtain ⟨before, after⟩ := Written.takeWhile_append_head digits.2 fun c hc => (head c hc).1
    have parts : ofText (b ++ x) = ⟨b, [], e⟩ := by
      unfold ofText
      rw [before, after]
      split
      · exact absurd rfl (head '.' rfl).2
      · rw [power.exponentOf_eq]
    rw [parts]
    refine ⟨by simpa using digits.2, rfl, ?_⟩
    simp [mantissa, natural]
  | @pointed ds fs hds hfs _ =>
    have stops : ∀ c ∈ ('.' :: (fs ++ x)).head?, isDigit c = false := by
      rintro _ ⟨⟩
      decide
    obtain ⟨before, after⟩ := Written.takeWhile_append_head hds stops
    obtain ⟨before', after'⟩ := Written.takeWhile_append_head hfs fun c hc => (head c hc).1
    have parts : ofText (ds ++ '.' :: fs ++ x) = ⟨ds, fs, e⟩ := by
      rw [List.append_assoc, List.cons_append]
      simp only [ofText, before, after, before', after', power.exponentOf_eq]
    rw [parts]
    refine ⟨List.forall_mem_append.2 ⟨hds, hfs⟩, rfl, ?_⟩
    have split : (⟨ds, fs, e⟩ : Numeral).mantissa = natural ds * 10 ^ fs.length + natural fs :=
      natural_append ds fs
    rw [split]
    push_cast
    field_simp

/-- The value is that of the parts. -/
theorem Denotes.eq_mantissa (h : Denotes t q) :
    (∀ c ∈ (ofText t).whole ++ (ofText t).fraction, isDigit c = true) ∧
      q = (ofText t).mantissa * 10 ^ (ofText t).scale := by
  obtain ⟨b, x, v, e, rfl, body, power, rfl⟩ := h
  obtain ⟨digits, exponent, value⟩ := ofText_of_body body power
  refine ⟨digits, ?_⟩
  have ten : (10 : ℚ) ≠ 0 := by norm_num
  rw [value, scale, exponent, zpow_sub₀ ten, zpow_natCast]
  ring

/-- A text has one value. -/
theorem Denotes.unique {q' : ℚ} (h : Denotes t q) (h' : Denotes t q') : q = q' :=
  h.eq_mantissa.2.trans h'.eq_mantissa.2.symm

/-! ### Fractions -/

/-- What is rounded for a decimal is a fraction of its value. -/
theorem exists_fraction (d : Decimal) :
    ∃ num den, 0 < den ∧ d.nearest = binary64.nearest num den ∧
      (d.digits : ℚ) * 10 ^ d.scale = num / den := by
  unfold Decimal.nearest
  rcases Int.lt_or_le d.scale 0 with below | above
  · rw [if_neg (Int.not_le.2 below)]
    refine ⟨d.digits, 10 ^ (-d.scale).toNat, Nat.pow_pos (by decide), rfl, ?_⟩
    have scale : d.scale = -((-d.scale).toNat : ℤ) := by omega
    rw [div_eq_mul_inv]
    congr 1
    conv_lhs => rw [scale]
    rw [zpow_neg, zpow_natCast]
    push_cast
    rfl
  · rw [if_pos above]
    refine ⟨d.digits * 10 ^ d.scale.toNat, 1, Nat.one_pos, rfl, ?_⟩
    have scale : d.scale = (d.scale.toNat : ℤ) := by omega
    conv_lhs => rw [scale, zpow_natCast]
    push_cast
    rw [div_one]

/-- A numeral is read as its value, rounded twice. -/
theorem Denotes.exists_fraction (h : Denotes t q) :
    ∃ num den : Nat, 0 < den ∧ q = num / den ∧
      value? t = some (.ofCode false (ofSingle (toSingle (binary64.nearest num den)))) := by
  obtain ⟨digits, value⟩ := h.eq_mantissa
  obtain ⟨num, den, hd, nearest, fraction⟩ :=
    Numeral.exists_fraction ⟨(ofText t).mantissa, (ofText t).scale⟩
  refine ⟨num, den, hd, value.trans fraction, ?_⟩
  rw [value?, read?_of_spells (exists_denotes_iff.1 ⟨q, h⟩), Option.map_some,
    value_eq_nearest digits, nearest]

end Numeral

end SolidScript.Number
