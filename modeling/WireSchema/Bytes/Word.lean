/-! Little-endian words. A word of `width` bytes holds a natural number below `256 ^ width`,
or an integer in two's complement. -/

namespace WireSchema

/-- Powers are those of core arithmetic, whatever algebra is imported besides. -/
instance (priority := 2000) corePow : Pow Nat Nat := instPowNat

namespace Word

def bytesOfNat : Nat → Nat → List UInt8
  | 0, _ => []
  | width + 1, n => UInt8.ofNat n :: bytesOfNat width (n / 256)

def natOfBytes : List UInt8 → Nat
  | [] => 0
  | byte :: rest => byte.toNat + 256 * natOfBytes rest

def bytesOfInt (width : Nat) (i : Int) : List UInt8 :=
  bytesOfNat width (i % (256 ^ width : Nat)).toNat

def intOfBytes (bytes : List UInt8) : Int :=
  Int.bmod (natOfBytes bytes) (256 ^ bytes.length)

theorem length_bytesOfNat (width n : Nat) : (bytesOfNat width n).length = width := by
  induction width generalizing n with
  | zero => rfl
  | succ width ih => simp [bytesOfNat, ih]

theorem natOfBytes_lt (bytes : List UInt8) : natOfBytes bytes < 256 ^ bytes.length := by
  induction bytes with
  | nil => simp [natOfBytes]
  | cons byte rest ih =>
    have := byte.toNat_lt
    simp only [natOfBytes, List.length_cons, Nat.pow_succ]
    omega

/-- A word holds a number up to multiples of its range. -/
theorem natOfBytes_bytesOfNat (width n : Nat) :
    natOfBytes (bytesOfNat width n) = n % 256 ^ width := by
  induction width generalizing n with
  | zero => simp [bytesOfNat, natOfBytes, Nat.mod_one]
  | succ width ih =>
    rw [bytesOfNat, natOfBytes, ih, Nat.pow_succ, Nat.mul_comm (256 ^ width), Nat.mod_mul]
    simp

theorem bytesOfNat_natOfBytes (bytes : List UInt8) :
    bytesOfNat bytes.length (natOfBytes bytes) = bytes := by
  induction bytes with
  | nil => rfl
  | cons byte rest ih =>
    have small := byte.toNat_lt
    have quotient : (byte.toNat + 256 * natOfBytes rest) / 256 = natOfBytes rest := by omega
    simp only [List.length_cons, bytesOfNat, natOfBytes, quotient, ih, List.cons.injEq, and_true]
    apply UInt8.toNat_inj.1
    simp

end Word

end WireSchema
