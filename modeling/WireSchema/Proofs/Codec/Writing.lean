import Mathlib.Data.List.Forall2
import WireSchema.Codec.Writer

/-! What emissions write. An emission without a fault is the bytes of its parts in a row. -/

namespace WireSchema

namespace Emission

theorem toExcept_eq_ok {emission : Emission} {bytes : List UInt8} :
    emission.toExcept = .ok bytes ↔ emission = ofBytes bytes := by
  obtain ⟨written, _ | fault⟩ := emission <;> simp [toExcept, ofBytes]

theorem fail_ne_ofBytes (error : CodecError) (bytes : List UInt8) : fail error ≠ ofBytes bytes := by
  simp [fail, ofBytes]

theorem ofBytes_inj {bytes bytes' : List UInt8} :
    ofBytes bytes = ofBytes bytes' ↔ bytes = bytes' := by
  simp [ofBytes]

theorem andThen_eq_ofBytes {first second : Emission} {bytes : List UInt8} :
    first.andThen second = ofBytes bytes ↔
      ∃ head tail, first = ofBytes head ∧ second = ofBytes tail ∧ bytes = head ++ tail := by
  constructor
  · intro written
    obtain ⟨head, _ | fault⟩ := first
    · obtain ⟨tail, fault⟩ := second
      obtain ⟨rfl, rfl⟩ := Emission.mk.inj written
      exact ⟨head, tail, rfl, rfl, rfl⟩
    · cases written
  · rintro ⟨head, tail, rfl, rfl, rfl⟩
    rfl

theorem length_eq_ofBytes {n : Nat} {bytes : List UInt8} :
    length n = ofBytes bytes ↔ n < 2 ^ (32 : Nat) ∧ bytes = Word.bytesOfNat 4 n := by
  unfold length
  split
  next bound =>
    rw [ofBytes_inj, eq_comm]
    exact (and_iff_right bound).symm
  next large =>
    constructor
    · exact fun written => absurd written (fail_ne_ofBytes _ _)
    · exact fun counted => absurd counted.1 large

theorem prefixed_eq_ofBytes {content bytes : List UInt8} :
    prefixed content = ofBytes bytes ↔
      content.length < 2 ^ (32 : Nat) ∧ bytes = Word.bytesOfNat 4 content.length ++ content := by
  rw [prefixed, andThen_eq_ofBytes]
  constructor
  · rintro ⟨head, tail, counted, same, rfl⟩
    obtain ⟨bound, rfl⟩ := length_eq_ofBytes.1 counted
    exact ⟨bound, by rw [ofBytes_inj.1 same]⟩
  · rintro ⟨bound, rfl⟩
    exact ⟨_, _, length_eq_ofBytes.2 ⟨bound, rfl⟩, rfl, rfl⟩

theorem sequence_eq_ofBytes {steps : List Emission} {bytes : List UInt8} :
    sequence steps = ofBytes bytes ↔
      ∃ parts, bytes = parts.flatten ∧
        List.Forall₂ (fun step part => step = ofBytes part) steps parts := by
  induction steps generalizing bytes with
  | nil =>
    constructor
    · intro written
      exact ⟨[], (ofBytes_inj.1 written).symm, .nil⟩
    · rintro ⟨parts, rfl, all⟩
      cases all
      rfl
  | cons step steps ih =>
    constructor
    · intro written
      obtain ⟨head, tail, first, rest, rfl⟩ := andThen_eq_ofBytes.1 written
      obtain ⟨parts, rfl, all⟩ := ih.1 rest
      exact ⟨head :: parts, rfl, .cons first all⟩
    · rintro ⟨parts, rfl, all⟩
      cases all with
      | cons first rest => exact andThen_eq_ofBytes.2 ⟨_, _, first, ih.2 ⟨_, rfl, rest⟩, rfl⟩

end Emission

theorem Writer.write_eq_ok {writer after : Writer} {emission : Emission} :
    writer.write emission = (.ok (), after) ↔
      ∃ bytes, emission = .ofBytes bytes ∧ after = ⟨writer.buffer ++ bytes⟩ := by
  obtain ⟨written, _ | fault⟩ := emission
  · simp [write, Emission.toExcept, Emission.ofBytes, Except.map, eq_comm]
  · simp [write, Emission.toExcept, Emission.ofBytes, Except.map]

end WireSchema
