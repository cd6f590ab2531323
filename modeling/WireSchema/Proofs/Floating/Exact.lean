import Mathlib.Algebra.Order.Ring.Nat
import Mathlib.Tactic.Ring
import WireSchema.Floating.Format

/-! Rounding a number that a format holds. Such a number is a multiple of the unit that rounding
picks for its size, so that it is encoded without a change. -/

namespace WireSchema.Floating

theorem roundEven_mul (n den : Nat) (positive : 0 < den) : roundEven (n * den) den = n := by
  have quotient : n * den / den = n := Nat.mul_div_cancel n positive
  have remainder : n * den % den = 0 := Nat.mul_mod_left n den
  simp only [roundEven, quotient, remainder]
  split <;> omega

theorem log2_mul_pow (m k : Nat) (positive : 0 < m) : (m * 2 ^ k).log2 = m.log2 + k := by
  have nonzero : m ≠ 0 := by omega
  have bounds := (Nat.log2_eq_iff nonzero).1 rfl
  apply (Nat.log2_eq_iff (Nat.mul_ne_zero nonzero (pow_ne_zero _ (by decide)))).2
  constructor
  · rw [pow_add]
    exact Nat.mul_le_mul_right _ bounds.1
  · rw [show m.log2 + k + 1 = m.log2 + 1 + k by omega, pow_add]
    exact Nat.mul_lt_mul_of_pos_right bounds.2 (Nat.two_pow_pos k)

/-- The binary logarithm of a scaled number, whose denominator is a power of two. -/
theorem ratioLog_scaled (m : Nat) (scale : Int) (positive : 0 < m) :
    ratioLog (m * 2 ^ scale.toNat) (1 * 2 ^ (-scale).toNat) = m.log2 + scale := by
  have den : (1 * 2 ^ (-scale).toNat).log2 = (-scale).toNat := by
    rw [one_mul, Nat.log2_two_pow]
  have guess : ((m * 2 ^ scale.toNat).log2 : Int) - ((1 * 2 ^ (-scale).toNat).log2 : Int) =
      m.log2 + scale := by
    rw [log2_mul_pow m _ positive, den]
    omega
  have below : 1 * 2 ^ (-scale).toNat * 2 ^ (m.log2 + scale : Int).toNat ≤
      m * 2 ^ scale.toNat * 2 ^ (-(m.log2 + scale : Int)).toNat := by
    have exponents : (-scale).toNat + (m.log2 + scale : Int).toNat =
        m.log2 + (scale.toNat + (-(m.log2 + scale : Int)).toNat) := by omega
    rw [one_mul, ← pow_add, mul_assoc, ← pow_add, exponents, pow_add]
    exact Nat.mul_le_mul_right _ (Nat.log2_self_le (Nat.ne_of_gt positive))
  simp only [ratioLog, guess, if_pos below]

namespace Format

variable (f : Format)

/-- A number that is `n` units of the scale that rounding picks keeps its value. -/
theorem nearestScaled_exact {m n : Nat} {scale unit : Int} (positive : 0 < m)
    (picked : max (m.log2 + scale - f.fraction) f.minScale = unit)
    (value : m * 2 ^ (scale - unit).toNat = n * 2 ^ (unit - scale).toNat) :
    f.nearestScaled m 1 scale =
      min ((unit - f.minScale).toNat * 2 ^ f.fraction + n) f.infinity := by
  have nonzero : m * 2 ^ scale.toNat ≠ 0 :=
    Nat.mul_ne_zero (by omega) (pow_ne_zero _ (by decide))
  have significand : m * 2 ^ scale.toNat * 2 ^ (-unit).toNat =
      n * (1 * 2 ^ (-scale).toNat * 2 ^ unit.toNat) := by
    -- Both sides are the given values times one power of two.
    obtain ⟨common, left, right⟩ : ∃ common : Nat,
        scale.toNat + (-unit).toNat = (scale - unit).toNat + common ∧
        (-scale).toNat + unit.toNat = (unit - scale).toNat + common :=
      ⟨scale.toNat + (-unit).toNat - (scale - unit).toNat, by omega, by omega⟩
    rw [one_mul, mul_assoc, ← pow_add, ← pow_add, left, right, pow_add, pow_add, ← mul_assoc,
      ← mul_assoc, value]
  have unitPositive : 0 < 1 * 2 ^ (-scale).toNat * 2 ^ unit.toNat :=
    Nat.mul_pos (Nat.mul_pos Nat.one_pos (Nat.two_pow_pos _)) (Nat.two_pow_pos _)
  simp only [nearestScaled, nearest, if_neg nonzero, ratioLog_scaled m scale positive, picked,
    significand, roundEven_mul _ _ unitPositive]

end Format

end WireSchema.Floating
