import WireSchema.Bytes.Hex
import WireSchema.Proofs.Outcome

/-! Hexadecimal text. Bytes come back from their text: its characters are all ASCII, so that each of
them is one byte for the reader, and two digits are what a byte was split into. -/

namespace WireSchema

open Outcome

/-- The two ways to list bytes agree. -/
theorem toList_bytes (bytes : ByteArray) : bytes.toList = bytes.data.toList := by
  suffices ∀ rest position read, position + rest = bytes.size →
      ByteArray.toList.loop bytes position read =
        read.reverse ++ bytes.data.toList.drop position from
    this bytes.size 0 [] (Nat.zero_add _)
  intro rest
  induction rest with
  | zero =>
    intro position read atEnd
    have nothing : bytes.data.toList.drop position = [] :=
      List.drop_eq_nil_of_le (Nat.le_of_eq atEnd.symm)
    rw [ByteArray.toList.loop, if_neg (by omega), nothing, List.append_nil]
  | succ rest ih =>
    intro position read inside
    have bound : position < bytes.data.toList.length := by
      show position < bytes.size
      omega
    have here : bytes.get! position = bytes.data.toList[position] :=
      getElem!_pos bytes.data position bound
    rw [ByteArray.toList.loop, if_pos (by omega), ih _ _ (by omega), here, List.reverse_cons,
      List.append_assoc, List.singleton_append, List.getElem_cons_drop]

/-- An ASCII character is one byte. -/
theorem toUTF8_of_ascii {chars : List Char} (ascii : ∀ c ∈ chars, c.toNat < 128) :
    (String.ofList chars).toUTF8.toList = chars.map fun c => UInt8.ofNat c.toNat := by
  rw [toList_bytes, String.toUTF8_eq_toByteArray, String.toByteArray_ofList]
  induction chars with
  | nil => rfl
  | cons c rest ih =>
    obtain ⟨here, below⟩ := List.forall_mem_cons.1 ascii
    have single : c.utf8Size = 1 := Char.utf8Size_eq_one_iff.2 (by
      rw [UInt32.le_iff_toNat_le]
      exact Nat.le_of_lt_succ here)
    rw [List.utf8Encode_cons, List.utf8Encode_singleton, String.utf8EncodeChar_eq_singleton single,
      ByteArray.data_append, Array.toList_append, ih below]
    rfl

namespace Hex

theorem toNat_digit : ∀ n < 16, (digit n).toNat < 128 ∧
    digitValue? (UInt8.ofNat (digit n).toNat) = some n := by
  decide

theorem exists_digit_of_mem {bytes : List UInt8} {c : Char} (member : c ∈ encodeChars bytes) :
    ∃ n < 16, c = digit n := by
  induction bytes with
  | nil => cases member
  | cons byte rest ih =>
    have small := byte.toNat_lt
    rw [encodeChars, List.mem_cons, List.mem_cons] at member
    obtain rfl | rfl | below := member
    · exact ⟨byte.toNat / 16, by omega, rfl⟩
    · exact ⟨byte.toNat % 16, by omega, rfl⟩
    · exact ih below

theorem length_encodeChars (bytes : List UInt8) :
    (encodeChars bytes).length = 2 * bytes.length := by
  induction bytes with
  | nil => rfl
  | cons byte rest ih =>
    rw [encodeChars, List.length_cons, List.length_cons, List.length_cons, ih]
    omega

theorem readDigit_digit {n : Nat} (small : n < 16) (position : Nat) :
    readDigit (UInt8.ofNat (digit n).toNat) position = .ok n := by
  rw [readDigit, (toNat_digit n small).2]

theorem decodePairs_encodeChars (bytes : List UInt8) (position : Nat) :
    decodePairs position ((encodeChars bytes).map fun c => UInt8.ofNat c.toNat) = .ok bytes := by
  induction bytes generalizing position with
  | nil => rfl
  | cons byte rest ih =>
    have small := byte.toNat_lt
    have whole : UInt8.ofNat (16 * (byte.toNat / 16) + byte.toNat % 16) = byte := by
      rw [Nat.div_add_mod, UInt8.ofNat_toNat]
    exact bind_eq_ok.2 ⟨_, readDigit_digit (by omega) _, bind_eq_ok.2 ⟨_,
      readDigit_digit (by omega) _, bind_eq_ok.2 ⟨rest, ih (position + 2), by rw [whole]; rfl⟩⟩⟩

theorem decode_encode (bytes : List UInt8) : decode (encode bytes) = .ok bytes := by
  have ascii : ∀ c ∈ encodeChars bytes, c.toNat < 128 := by
    intro c member
    obtain ⟨n, small, rfl⟩ := exists_digit_of_mem member
    exact (toNat_digit n small).1
  have even : ((encodeChars bytes).map fun c => UInt8.ofNat c.toNat).length % 2 = 0 := by
    rw [List.length_map, length_encodeChars]
    exact Nat.mul_mod_right 2 _
  rw [decode, encode, toUTF8_of_ascii ascii]
  simp only [if_pos even, decodePairs_encodeChars]

end Hex

end WireSchema
