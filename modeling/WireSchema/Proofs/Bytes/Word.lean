import Mathlib.Algebra.Order.Ring.Int
import WireSchema.Schema.Basic
import WireSchema.Bytes.Word

/-! Words of every width. Each word holds one number of the range of its width, and each number
of the range has one word, with and without a sign. -/

namespace WireSchema

namespace Word

theorem length_bytesOfInt (width : Nat) (i : Int) : (bytesOfInt width i).length = width :=
  length_bytesOfNat width _

theorem natOfBytes_bytesOfNat_of_lt {width n : Nat} (bound : n < 256 ^ width) :
    natOfBytes (bytesOfNat width n) = n := by
  rw [natOfBytes_bytesOfNat, Nat.mod_eq_of_lt bound]

theorem half_range {width : Nat} (positive : 0 < width) : 2 * (256 ^ width / 2) = 256 ^ width := by
  obtain ⟨width, rfl⟩ := Nat.exists_eq_succ_of_ne_zero (Nat.ne_of_gt positive)
  rw [Nat.pow_succ]
  omega

theorem intOfBytes_bytesOfInt {width : Nat} {i : Int} (positive : 0 < width)
    (lower : -(256 ^ width / 2 : Nat) ≤ i) (upper : i < (256 ^ width / 2 : Nat)) :
    intOfBytes (bytesOfInt width i) = i := by
  have even := half_range positive
  have range : 0 < 256 ^ width := Nat.pow_pos (by decide)
  have residue : 0 ≤ i % (256 ^ width : Nat) := Int.emod_nonneg i (by omega)
  have bound : (i % (256 ^ width : Nat)).toNat < 256 ^ width := by
    have := Int.emod_lt_of_pos i (Int.natCast_pos.2 range)
    omega
  rw [intOfBytes, bytesOfInt, length_bytesOfNat, natOfBytes_bytesOfNat_of_lt bound,
    Int.toNat_of_nonneg residue, Int.emod_bmod]
  exact Int.bmod_eq_of_le (by omega) (by omega)

theorem bytesOfInt_intOfBytes (bytes : List UInt8) :
    bytesOfInt bytes.length (intOfBytes bytes) = bytes := by
  have small : ((natOfBytes bytes : Nat) : Int) % (256 ^ bytes.length : Nat) = natOfBytes bytes :=
    Int.emod_eq_of_lt (by omega) (by exact_mod_cast natOfBytes_lt bytes)
  rw [bytesOfInt, intOfBytes, Int.bmod_emod, small, Int.toNat_natCast, bytesOfNat_natOfBytes]

theorem intOfBytes_bounds {bytes : List UInt8} (positive : 0 < bytes.length) :
    -(256 ^ bytes.length / 2 : Nat) ≤ intOfBytes bytes ∧
      intOfBytes bytes < (256 ^ bytes.length / 2 : Nat) := by
  have even := half_range positive
  have range : 0 < 256 ^ bytes.length := Nat.pow_pos (by decide)
  have lower := Int.le_bmod (x := natOfBytes bytes) range
  have upper := Int.bmod_lt (x := natOfBytes bytes) range
  rw [intOfBytes]
  omega

end Word

namespace Width

theorem bytes_pos (w : Width) : 0 < w.bytes := by
  cases w <;> decide

theorem containsNat_iff (w : Width) (n : Nat) : w.containsNat n = true ↔ n < 256 ^ w.bytes := by
  rw [containsNat, decide_eq_true_eq, range]

theorem containsInt_iff (w : Width) (i : Int) :
    w.containsInt i = true ↔
      -(256 ^ w.bytes / 2 : Nat) ≤ i ∧ i < (256 ^ w.bytes / 2 : Nat) := by
  rw [containsInt, Bool.and_eq_true, decide_eq_true_eq, decide_eq_true_eq, range]

/-- A word of the width holds nothing that is out of range. -/
theorem containsNat_natOfBytes (w : Width) {bytes : List UInt8} (sized : bytes.length = w.bytes) :
    w.containsNat (Word.natOfBytes bytes) = true :=
  (w.containsNat_iff _).2 (sized ▸ Word.natOfBytes_lt bytes)

theorem containsInt_intOfBytes (w : Width) {bytes : List UInt8} (sized : bytes.length = w.bytes) :
    w.containsInt (Word.intOfBytes bytes) = true :=
  (w.containsInt_iff _).2 (sized ▸ Word.intOfBytes_bounds (sized ▸ w.bytes_pos))

end Width

end WireSchema
