import WireSchema.Proofs.Floating.Fields

/-! Single precision inside double precision. Widening keeps every number and narrowing takes it
back, except that a NaN which signals becomes a quiet one on the way. -/

namespace WireSchema

open Floating

namespace Binary64

/-- The quiet NaN that arithmetic gives. -/
def canonicalNaN : Binary64 := ⟨0x7ff8000000000000⟩

/-- A number, or the NaN of arithmetic. -/
def isCanonical (x : Binary64) : Bool :=
  !x.isNaN || x == canonicalNaN

/-! ## Single-precision data -/

/-- What single-precision patterns stand for. A finite significand is a number of the units that
rounding picks for it. -/
inductive IsSingle : Datum → Prop
  | nan (negative : Bool) {payload : Nat} (positive : 0 < payload) (bound : payload < 2 ^ 23) :
      IsSingle (.nan negative payload)
  | infinite (negative : Bool) : IsSingle (.infinite negative)
  | finite (negative : Bool) {m : Nat} {scale : Int} (small : m < 2 ^ 24) (low : -149 ≤ scale)
      (high : scale ≤ 104)
      (picked : 0 < m → max (m.log2 + scale - single.fraction) single.minScale = scale) :
      IsSingle (.finite negative m scale)

theorem isSingle_datumOf (negative : Bool) {exponent fraction : Nat}
    (exponentBound : exponent < 256) (fractionBound : fraction < 2 ^ 23) :
    IsSingle (single.datumOf negative exponent fraction) := by
  have minScale : single.minScale = -149 := rfl
  have maxExponent : single.maxExponent = 255 := rfl
  have width : single.fraction = 23 := rfl
  simp only [Format.datumOf, maxExponent]
  split
  next top =>
    split
    next => exact .infinite negative
    next payload => exact .nan negative (by omega) fractionBound
  next finite =>
    split
    next =>
      have bound : fraction < 2 ^ 24 := by omega
      have picked := Format.picked_subnormal (f := single) fractionBound
      exact .finite negative bound (by decide) (by decide) picked
    next normal =>
      refine .finite negative (by rw [width]; omega) (by rw [minScale]; omega)
        (by rw [minScale]; omega) fun _ => ?_
      exact Format.picked_normal (f := single) fractionBound (by rw [minScale]; omega)

theorem exists_single (bits : UInt32) :
    ∃ negative exponent fraction, exponent < 256 ∧ fraction < 2 ^ 23 ∧
      bits.toNat = single.pack negative exponent fraction ∧
      single.decode bits.toNat = single.datumOf negative exponent fraction := by
  obtain ⟨negative, exponent, fraction, exponentBound, fractionBound, packed⟩ :=
    Format.exists_pack (f := single) bits.toNat_lt
  refine ⟨negative, exponent, fraction, exponentBound, fractionBound, packed, ?_⟩
  rw [packed]
  exact Format.decode_pack (f := single) negative exponentBound fractionBound

theorem isSingle_decode (bits : UInt32) : IsSingle (single.decode bits.toNat) := by
  obtain ⟨negative, exponent, fraction, exponentBound, fractionBound, -, decoded⟩ :=
    exists_single bits
  rw [decoded]
  exact isSingle_datumOf negative exponentBound fractionBound

theorem encode_decode_single (bits : UInt32) :
    UInt32.ofNat (single.encode (single.decode bits.toNat)) = bits := by
  obtain ⟨negative, exponent, fraction, exponentBound, fractionBound, packed, decoded⟩ :=
    exists_single bits
  have bound : exponent ≤ single.maxExponent := Nat.le_of_lt_succ exponentBound
  rw [decoded, Format.encode_datumOf (f := single) negative bound fractionBound (by decide),
    ← packed, UInt32.ofNat_toNat]

/-! ## Data in double precision -/

theorem datum_ofBits {negative : Bool} {exponent fraction : Nat} (exponentBound : exponent < 2048)
    (fractionBound : fraction < 2 ^ 52) :
    datum ⟨UInt64.ofNat (double.pack negative exponent fraction)⟩ =
      double.datumOf negative exponent fraction := by
  have bound : double.pack negative exponent fraction < 2 * double.signBit :=
    Format.pack_lt (f := double) negative exponentBound fractionBound
  have whole : (UInt64.ofNat (double.pack negative exponent fraction)).toNat =
      double.pack negative exponent fraction :=
    UInt64.toNat_ofNat_of_lt' bound
  rw [datum, whole]
  exact Format.decode_pack (f := double) negative exponentBound fractionBound

/-- A number of single precision has a significand of 24 bits, which is shifted to 53. -/
theorem exists_datum_ofDatum (negative : Bool) {m : Nat} {scale : Int} (positive : 0 < m)
    (small : m < 2 ^ 24) (low : -149 ≤ scale) (high : scale ≤ 104) :
    ∃ shift : Nat, (ofDatum (.finite negative m scale)).datum =
      .finite negative (m * 2 ^ shift) (scale - shift) := by
  have minScale : double.minScale = -1074 := rfl
  have width : double.fraction = 52 := rfl
  have maxExponent : double.maxExponent = 2047 := rfl
  have log : m.log2 < 24 := (Nat.log2_lt (by omega)).2 small
  obtain ⟨shift, full⟩ : ∃ shift : Nat, m.log2 + shift = 52 := ⟨52 - m.log2, by omega⟩
  have nonzero : m * 2 ^ shift ≠ 0 := Nat.mul_ne_zero (by omega) (pow_ne_zero _ (by decide))
  obtain ⟨lower, upper⟩ := (Nat.log2_eq_iff nonzero).1 ((log2_mul_pow m shift positive).trans full)
  have encoded : double.encode (.finite negative m scale) =
      double.pack negative ((scale - shift - double.minScale).toNat + 1)
        (m * 2 ^ shift - 2 ^ double.fraction) := by
    apply Format.encode_normal (f := double) negative positive
    · rw [width, minScale]
      omega
    · rw [show (scale - (scale - shift : Int)).toNat = shift by omega,
        show (scale - shift - scale : Int).toNat = 0 by omega, pow_zero, mul_one]
    · exact lower
    · rw [width, Nat.mul_comm 2, ← pow_succ]
      exact upper
    · rw [maxExponent, minScale]
      omega
  have significand : 2 ^ 52 + (m * 2 ^ shift - 2 ^ 52) = m * 2 ^ shift := by omega
  have exponent : -1074 + (((scale - shift - -1074 : Int).toNat + 1 : Nat) : Int) - 1 =
      scale - shift := by omega
  refine ⟨shift, ?_⟩
  rw [ofDatum, encoded, width, datum_ofBits (by rw [minScale]; omega) (by omega), Format.datumOf,
    maxExponent, minScale, width, if_neg (by omega), if_neg (by omega), significand, exponent]

theorem datum_ofDatum_zero (negative : Bool) (scale : Int) :
    (ofDatum (.finite negative 0 scale)).datum = .finite negative 0 double.minScale := by
  rw [ofDatum, Format.encode_zero, datum_ofBits (by decide) (by decide)]
  rfl

theorem datum_ofDatum_infinite (negative : Bool) :
    (ofDatum (.infinite negative)).datum = .infinite negative := by
  rw [ofDatum, Format.encode_infinite, datum_ofBits (by decide) (by decide)]
  rfl

theorem datum_ofDatum_nan (negative : Bool) {payload : Nat} (positive : 0 < payload)
    (bound : payload < 2 ^ 52) :
    (ofDatum (.nan negative payload)).datum = .nan negative payload := by
  rw [ofDatum, Format.encode_nan, datum_ofBits (by decide) bound, Format.datumOf, if_pos rfl,
    if_neg (by omega)]

/-! ## There and back -/

theorem narrow_ofDatum_finite (negative : Bool) {m : Nat} {scale : Int} (small : m < 2 ^ 24)
    (low : -149 ≤ scale) (high : scale ≤ 104)
    (picked : 0 < m → max (m.log2 + scale - single.fraction) single.minScale = scale) :
    (ofDatum (.finite negative m scale)).narrow =
      UInt32.ofNat (single.encode (.finite negative m scale)) := by
  rcases Nat.eq_zero_or_pos m with none | positive
  · subst none
    simp only [narrow, datum_ofDatum_zero, Format.encode_zero]
  · obtain ⟨shift, widened⟩ := exists_datum_ofDatum negative positive small low high
    simp only [narrow, widened, Format.encode_shifted negative shift positive (picked positive)]

/-- The payload of a NaN moves to the leading bits, of which the first is set. -/
theorem widened_payload {payload : Nat} (bound : payload < 2 ^ 23) :
    payload * 2 ^ 29 ||| 2 ^ 51 < 2 ^ 52 ∧ 0 < payload * 2 ^ 29 ||| 2 ^ 51 ∧
      (payload * 2 ^ 29 ||| 2 ^ 51) / 2 ^ 29 ||| 2 ^ 22 = payload ||| 2 ^ 22 := by
  refine ⟨Nat.or_lt_two_pow (by omega) (by decide), ?_, ?_⟩
  · exact Nat.lt_of_lt_of_le (by decide : 0 < 2 ^ 51) Nat.right_le_or
  · rw [← Nat.shiftRight_eq_div_pow, Nat.shiftRight_or_distrib, ← Nat.shiftLeft_eq,
      Nat.shiftLeft_shiftRight, show 2 ^ 51 >>> 29 = 2 ^ 22 by decide, Nat.or_assoc, Nat.or_self]

/-- Widening sets the quiet bit of a NaN and loses nothing else. -/
theorem narrow_widen_eq (bits : UInt32) :
    (widen bits).narrow = UInt32.ofNat (single.encode (match single.decode bits.toNat with
      | .nan negative payload => .nan negative (payload ||| 2 ^ 22)
      | datum => datum)) := by
  have data := isSingle_decode bits
  simp only [widen]
  generalize single.decode bits.toNat = datum at data
  cases data with
  | nan negative positive bound =>
    obtain ⟨small, nonzero, restored⟩ := widened_payload bound
    simp only [narrow, datum_ofDatum_nan negative nonzero small, restored]
  | infinite negative => simp only [narrow, datum_ofDatum_infinite]
  | finite negative small low high picked =>
    simp only [narrow_ofDatum_finite negative small low high picked]

theorem isNaN_of_datum {x : Binary64} {negative : Bool} {payload : Nat}
    (nan : x.datum = .nan negative payload) : x.isNaN = true := by
  rw [isNaN, nan]

theorem exists_nan {x : Binary64} (nan : x.isNaN = true) :
    ∃ negative payload, 0 < payload ∧ payload < 2 ^ 52 ∧ x.datum = .nan negative payload := by
  obtain ⟨negative, exponent, fraction, exponentBound, fractionBound, packed⟩ :=
    Format.exists_pack (f := double) x.bits.toNat_lt
  have decoded : x.datum = double.datumOf negative exponent fraction := by
    rw [datum, packed]
    exact Format.decode_pack (f := double) negative exponentBound fractionBound
  rw [isNaN, decoded, Format.datumOf] at nan
  by_cases top : exponent = double.maxExponent
  · by_cases none : fraction = 0
    · simp [top, none] at nan
    · refine ⟨negative, fraction, by omega, fractionBound, ?_⟩
      rw [decoded, Format.datumOf, if_pos top, if_neg none]
  · rw [if_neg top] at nan
    by_cases low : exponent = 0
    · simp [if_pos low] at nan
    · simp [if_neg low] at nan

theorem decode_encode_nan (negative : Bool) {payload : Nat} (positive : 0 < payload)
    (bound : payload < 2 ^ 23) :
    single.decode (UInt32.ofNat (single.encode (.nan negative payload))).toNat =
      .nan negative payload := by
  have top : single.maxExponent < 2 ^ single.exponent := by decide
  have whole : (UInt32.ofNat (single.pack negative single.maxExponent payload)).toNat =
      single.pack negative single.maxExponent payload :=
    UInt32.toNat_ofNat_of_lt' (Format.pack_lt (f := single) negative top bound)
  rw [Format.encode_nan, whole, Format.decode_pack (f := single) negative top bound,
    Format.datumOf, if_pos rfl, if_neg (by omega)]

theorem widen_encode_nan (negative : Bool) {payload : Nat} (positive : 0 < payload)
    (bound : payload < 2 ^ 23) :
    widen (UInt32.ofNat (single.encode (.nan negative payload))) =
      ofDatum (.nan negative (payload * 2 ^ 29 ||| 2 ^ 51)) := by
  simp only [widen, decode_encode_nan negative positive bound]

/-- Numbers of single precision are the same in double precision, and every widened NaN is quiet. -/
theorem toSingle_widen (bits : UInt32) : (widen bits).toSingle = widen bits := by
  rw [toSingle, narrow_widen_eq]
  cases decoded : single.decode bits.toNat with
  | nan negative payload =>
    have data := isSingle_decode bits
    rw [decoded] at data
    cases data with
    | nan _ positive bound =>
      have quiet : payload ||| 2 ^ 22 < 2 ^ 23 := Nat.or_lt_two_pow bound (by decide)
      have merged : (payload ||| 2 ^ 22) * 2 ^ 29 ||| 2 ^ 51 = payload * 2 ^ 29 ||| 2 ^ 51 := by
        rw [← Nat.shiftLeft_eq, Nat.shiftLeft_or_distrib, show 2 ^ 22 <<< 29 = 2 ^ 51 by decide,
          Nat.or_assoc, Nat.or_self, Nat.shiftLeft_eq]
      have nonzero : 0 < payload ||| 2 ^ 22 := Nat.lt_of_lt_of_le positive Nat.left_le_or
      rw [widen_encode_nan negative nonzero quiet, merged]
      simp only [widen, decoded]
  | infinite negative => simp only [← decoded, encode_decode_single]
  | finite negative m scale => simp only [← decoded, encode_decode_single]

/-- Narrowing undoes widening, but for the NaNs that are not the canonical one. -/
theorem narrow_widen {bits : UInt32} (canonical : (widen bits).isCanonical = true) :
    (widen bits).narrow = bits := by
  rw [narrow_widen_eq]
  cases decoded : single.decode bits.toNat with
  | nan negative payload =>
    have data := isSingle_decode bits
    rw [decoded] at data
    cases data with
    | nan _ positive bound =>
      obtain ⟨small, nonzero, restored⟩ := widened_payload bound
      have widened : (widen bits).datum = .nan negative (payload * 2 ^ 29 ||| 2 ^ 51) := by
        simp only [widen, decoded, datum_ofDatum_nan negative nonzero small]
      have same : widen bits = canonicalNaN := by
        simpa [isCanonical, isNaN_of_datum widened] using canonical
      have quiet : canonicalNaN.datum = .nan false (2 ^ 51) := by decide
      rw [same, quiet] at widened
      obtain ⟨-, merged⟩ := Datum.nan.inj widened
      rw [← merged, show 2 ^ 51 / 2 ^ 29 ||| 2 ^ 22 = 2 ^ 22 by decide] at restored
      have quieted : payload ||| 2 ^ 22 = payload := by
        have upper : payload ≤ payload ||| 2 ^ 22 := Nat.left_le_or
        have lower : ¬payload < 2 ^ 22 := fun less => by
          have sum := Nat.two_pow_add_eq_or_of_lt less 1
          rw [Nat.mul_one, Nat.or_comm] at sum
          omega
        omega
      simp only [quieted, ← decoded, encode_decode_single]
  | infinite negative => simp only [← decoded, encode_decode_single]
  | finite negative m scale => simp only [← decoded, encode_decode_single]

/-- Of the single-precision NaNs one alone widens to the canonical one. -/
theorem isCanonical_widen_iff (bits : UInt32) :
    (widen bits).isCanonical = true ↔ (widen bits).isNaN = false ∨ bits = 0x7fc00000 := by
  constructor
  · intro canonical
    cases nan : (widen bits).isNaN with
    | false => exact .inl rfl
    | true =>
      have same : widen bits = canonicalNaN := by simpa [isCanonical, nan] using canonical
      refine .inr ?_
      rw [← narrow_widen canonical, same]
      decide
  · rintro (number | rfl)
    · simp [isCanonical, number]
    · decide

theorem isNaN_toSingle {x : Binary64} (nan : x.isNaN = true) : x.toSingle.isNaN = true := by
  obtain ⟨negative, payload, positive, bound, decoded⟩ := exists_nan nan
  have quiet : payload / 2 ^ 29 ||| 2 ^ 22 < 2 ^ 23 := Nat.or_lt_two_pow (by omega) (by decide)
  have nonzero : 0 < payload / 2 ^ 29 ||| 2 ^ 22 :=
    Nat.lt_of_lt_of_le (by decide : 0 < 2 ^ 22) Nat.right_le_or
  obtain ⟨small, widened, -⟩ := widened_payload quiet
  simp only [toSingle, narrow, decoded, widen_encode_nan negative nonzero quiet]
  exact isNaN_of_datum (datum_ofDatum_nan negative widened small)

end Binary64

end WireSchema
