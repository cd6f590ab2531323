import WireSchema.Proofs.Floating.Exact

/-! Bit patterns as a sign, an exponent and a fraction. Every pattern of a format is packed from
its fields, and the fields alone decide what it stands for. -/

namespace WireSchema.Floating.Format

variable (f : Format)

def pack (negative : Bool) (exponent fraction : Nat) : Nat :=
  f.withSign negative (exponent * 2 ^ f.fraction + fraction)

def datumOf (negative : Bool) (exponent fraction : Nat) : Datum :=
  if exponent = f.maxExponent then
    if fraction = 0 then .infinite negative else .nan negative fraction
  else if exponent = 0 then .finite negative fraction f.minScale
  else .finite negative (2 ^ f.fraction + fraction) (f.minScale + exponent - 1)

variable {f}

theorem magnitude_lt {exponent fraction : Nat} (exponentBound : exponent < 2 ^ f.exponent)
    (fractionBound : fraction < 2 ^ f.fraction) :
    exponent * 2 ^ f.fraction + fraction < f.signBit := by
  rw [signBit, Nat.add_comm f.fraction, pow_add, Nat.mul_comm exponent,
    Nat.mul_comm (2 ^ f.exponent)]
  calc 2 ^ f.fraction * exponent + fraction
      < 2 ^ f.fraction * exponent + 2 ^ f.fraction := Nat.add_lt_add_left fractionBound _
    _ = 2 ^ f.fraction * (exponent + 1) := by rw [Nat.mul_succ]
    _ ≤ 2 ^ f.fraction * 2 ^ f.exponent := Nat.mul_le_mul_left _ exponentBound

theorem pack_lt (negative : Bool) {exponent fraction : Nat}
    (exponentBound : exponent < 2 ^ f.exponent) (fractionBound : fraction < 2 ^ f.fraction) :
    f.pack negative exponent fraction < 2 * f.signBit := by
  have bound := magnitude_lt exponentBound fractionBound
  simp only [pack, withSign]
  split <;> omega

theorem decode_pack (negative : Bool) {exponent fraction : Nat}
    (exponentBound : exponent < 2 ^ f.exponent) (fractionBound : fraction < 2 ^ f.fraction) :
    f.decode (f.pack negative exponent fraction) = f.datumOf negative exponent fraction := by
  have bound := magnitude_lt exponentBound fractionBound
  have positive : 0 < f.signBit := Nat.two_pow_pos _
  obtain ⟨sign, high, low⟩ :
      (f.pack negative exponent fraction / f.signBit % 2 == 1) = negative ∧
      f.pack negative exponent fraction / 2 ^ f.fraction % 2 ^ f.exponent = exponent ∧
      f.pack negative exponent fraction % 2 ^ f.fraction = fraction := by
    cases negative with
    | false =>
      simp only [pack, withSign, Bool.false_eq_true, if_false]
      refine ⟨by simp [Nat.div_eq_of_lt bound], ?_, ?_⟩
      · rw [Nat.mul_comm, Nat.mul_add_div (Nat.two_pow_pos _), Nat.div_eq_of_lt fractionBound,
          Nat.add_zero, Nat.mod_eq_of_lt exponentBound]
      · rw [Nat.mul_comm, Nat.mul_add_mod, Nat.mod_eq_of_lt fractionBound]
    | true =>
      have fields : f.signBit + (exponent * 2 ^ f.fraction + fraction) =
          2 ^ f.fraction * (2 ^ f.exponent + exponent) + fraction := by
        rw [signBit, pow_add]
        ring
      simp only [pack, withSign, if_true]
      refine ⟨?_, ?_, ?_⟩
      · rw [Nat.add_div_left _ positive, Nat.div_eq_of_lt bound]
        rfl
      · rw [fields, Nat.mul_add_div (Nat.two_pow_pos _), Nat.div_eq_of_lt fractionBound,
          Nat.add_zero, Nat.add_mod_left, Nat.mod_eq_of_lt exponentBound]
      · rw [fields, Nat.mul_add_mod, Nat.mod_eq_of_lt fractionBound]
  simp only [decode, sign, high, low, datumOf]

theorem exists_pack {bits : Nat} (bound : bits < 2 * f.signBit) :
    ∃ negative exponent fraction, exponent < 2 ^ f.exponent ∧ fraction < 2 ^ f.fraction ∧
      bits = f.pack negative exponent fraction := by
  have positive : 0 < f.signBit := Nat.two_pow_pos _
  refine ⟨decide (f.signBit ≤ bits), bits % f.signBit / 2 ^ f.fraction, bits % 2 ^ f.fraction,
    ?_, Nat.mod_lt _ (Nat.two_pow_pos _), ?_⟩
  · rw [Nat.div_lt_iff_lt_mul (Nat.two_pow_pos _), ← pow_add, Nat.add_comm]
    exact Nat.mod_lt _ positive
  · have low : bits % 2 ^ f.fraction = bits % f.signBit % 2 ^ f.fraction := by
      rw [signBit, pow_add, Nat.mod_mul_right_mod]
    have magnitude : bits % f.signBit / 2 ^ f.fraction * 2 ^ f.fraction + bits % 2 ^ f.fraction =
        bits % f.signBit := by
      rw [low, Nat.mul_comm, Nat.div_add_mod]
    rw [pack, magnitude, withSign]
    by_cases high : f.signBit ≤ bits
    · rw [decide_eq_true high, if_pos rfl, Nat.mod_eq_sub_mod high, Nat.mod_eq_of_lt (by omega)]
      omega
    · rw [decide_eq_false high, if_neg (by decide), Nat.mod_eq_of_lt (by omega)]

/-! ## Encoding -/

theorem nearestScaled_zero (scale : Int) : f.nearestScaled 0 1 scale = 0 := by
  simp [nearestScaled, nearest]

theorem encode_zero (negative : Bool) (scale : Int) :
    f.encode (.finite negative 0 scale) = f.pack negative 0 0 := by
  simp [encode, nearestScaled_zero, pack]

theorem encode_infinite (negative : Bool) :
    f.encode (.infinite negative) = f.pack negative f.maxExponent 0 := rfl

theorem encode_nan (negative : Bool) (payload : Nat) :
    f.encode (.nan negative payload) = f.pack negative f.maxExponent payload := rfl

/-- A number with `n` units of its scale for a significand, the first bit of which is implicit. -/
theorem encode_normal {m n : Nat} {scale unit : Int} (negative : Bool) (positive : 0 < m)
    (picked : max (m.log2 + scale - f.fraction) f.minScale = unit)
    (value : m * 2 ^ (scale - unit).toNat = n * 2 ^ (unit - scale).toNat)
    (lower : 2 ^ f.fraction ≤ n) (upper : n < 2 * 2 ^ f.fraction)
    (room : (unit - f.minScale).toNat + 1 < f.maxExponent) :
    f.encode (.finite negative m scale) =
      f.pack negative ((unit - f.minScale).toNat + 1) (n - 2 ^ f.fraction) := by
  have carried : (unit - f.minScale).toNat * 2 ^ f.fraction + n =
      ((unit - f.minScale).toNat + 1) * 2 ^ f.fraction + (n - 2 ^ f.fraction) := by
    rw [Nat.succ_mul]
    omega
  have finite : ((unit - f.minScale).toNat + 1) * 2 ^ f.fraction + (n - 2 ^ f.fraction) ≤
      f.infinity := by
    have next : ((unit - f.minScale).toNat + 1 + 1) * 2 ^ f.fraction ≤ f.infinity :=
      Nat.mul_le_mul_right _ room
    rw [Nat.succ_mul] at next
    omega
  rw [encode, f.nearestScaled_exact positive picked value, carried, Nat.min_eq_left finite, pack]

/-- Halving the unit of a number that a format holds changes nothing. -/
theorem encode_shifted {m : Nat} {scale : Int} (negative : Bool) (k : Nat) (positive : 0 < m)
    (picked : max (m.log2 + scale - f.fraction) f.minScale = scale) :
    f.encode (.finite negative (m * 2 ^ k) (scale - k)) = f.encode (.finite negative m scale) := by
  have shifted : max ((m * 2 ^ k).log2 + (scale - k) - f.fraction) f.minScale = scale := by
    rw [log2_mul_pow m k positive]
    omega
  have whole : f.nearestScaled m 1 scale = _ := f.nearestScaled_exact positive picked rfl
  have halved := f.nearestScaled_exact (n := m) (Nat.mul_pos positive (Nat.two_pow_pos k)) shifted
    (by rw [show (scale - k - scale).toNat = 0 by omega, show (scale - (scale - k)).toNat = k by
      omega, pow_zero, mul_one])
  rw [encode, encode, whole, halved]

/-- The significand of a number stands at the scale that rounding picks for it. -/
theorem picked_normal {fraction : Nat} {scale : Int} (fractionBound : fraction < 2 ^ f.fraction)
    (normal : f.minScale ≤ scale) :
    max ((2 ^ f.fraction + fraction).log2 + scale - f.fraction) f.minScale = scale := by
  have log : (2 ^ f.fraction + fraction).log2 = f.fraction := by
    have positive := Nat.two_pow_pos f.fraction
    rw [Nat.log2_eq_iff (by omega), pow_succ]
    omega
  omega

theorem picked_subnormal {fraction : Nat} (fractionBound : fraction < 2 ^ f.fraction)
    (positive : 0 < fraction) :
    max (fraction.log2 + f.minScale - f.fraction) f.minScale = f.minScale := by
  have log : fraction.log2 < f.fraction := (Nat.log2_lt (by omega)).2 fractionBound
  omega

/-- Encoding undoes decoding. -/
theorem encode_datumOf (negative : Bool) {exponent fraction : Nat}
    (exponentBound : exponent ≤ f.maxExponent) (fractionBound : fraction < 2 ^ f.fraction)
    (exponents : 0 < f.maxExponent) :
    f.encode (f.datumOf negative exponent fraction) = f.pack negative exponent fraction := by
  simp only [datumOf]
  split
  next top =>
    split
    next none => rw [encode_infinite, top, none]
    next => rw [encode_nan, top]
  next finite =>
    split
    next low =>
      rcases Nat.eq_zero_or_pos fraction with none | positive
      · rw [none, encode_zero, low]
      · have exact := f.nearestScaled_exact positive (picked_subnormal fractionBound positive) rfl
        have small : fraction ≤ f.infinity :=
          fractionBound.le.trans (Nat.le_mul_of_pos_left _ exponents)
        rw [Int.sub_self, Int.toNat_zero, Nat.zero_mul, Nat.zero_add,
          Nat.min_eq_left small] at exact
        rw [encode, exact, pack, low, Nat.zero_mul, Nat.zero_add]
    next high =>
      have unit : (f.minScale + exponent - 1 - f.minScale).toNat + 1 = exponent := by omega
      rw [encode_normal negative (Nat.add_pos_left (Nat.two_pow_pos _) _)
        (picked_normal fractionBound (by omega)) rfl (by omega) (by omega) (by omega), unit,
        Nat.add_sub_cancel_left]

end WireSchema.Floating.Format
