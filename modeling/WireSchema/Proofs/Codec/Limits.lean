import WireSchema.Codec.Encode
import WireSchema.Proofs.Codec.Writing

/-! What emissions fail with. An emission writes its bytes when none of the faults of its parts
arises, and it ends in one of them otherwise. -/

namespace WireSchema

namespace Emission

/-- An emission of known bytes, and the faults that stand in the way of them. -/
inductive Limited (emission : Emission) (faults : CodecError → Prop) (bytes : List UInt8) : Prop
  | written (clear : ∀ error, ¬faults error) (all : emission = ofBytes bytes)
  | stopped {error : CodecError} (arises : faults error) (ends : emission.fault = some error)

def TooLong (n : Nat) (error : CodecError) : Prop :=
  2 ^ (32 : Nat) ≤ n ∧ error = .lengthTooLarge n

theorem not_tooLong_zero (error : CodecError) : ¬TooLong 0 error :=
  fun long => absurd long.1 (by decide)

theorem limited_ofBytes (bytes : List UInt8) : (ofBytes bytes).Limited (fun _ => False) bytes :=
  .written (fun _ => id) rfl

theorem limited_length (n : Nat) :
    (length n).Limited (TooLong n) (Word.bytesOfNat 4 n) := by
  by_cases bound : n < 2 ^ (32 : Nat)
  · exact .written (fun _ long => Nat.not_le.2 bound long.1) (if_pos bound)
  · exact .stopped ⟨Nat.le_of_not_lt bound, rfl⟩ (by rw [length, if_neg bound]; rfl)

namespace Limited

variable {first second : Emission} {faults faults' : CodecError → Prop}
  {bytes bytes' : List UInt8}

theorem congr (limited : first.Limited faults bytes) (same : ∀ error, faults error ↔ faults' error)
    (equal : bytes = bytes') : first.Limited faults' bytes' := by
  obtain rfl : faults = faults' := funext fun error => propext (same error)
  exact equal ▸ limited

/-- A fault of the first one stops the second one. -/
theorem andThen (limited : first.Limited faults bytes) (limited' : second.Limited faults' bytes') :
    (first.andThen second).Limited (fun error => faults error ∨ faults' error)
      (bytes ++ bytes') := by
  cases limited with
  | stopped arises ends =>
    exact .stopped (.inl arises) (by simp only [Emission.andThen, ends])
  | written clear all =>
    subst all
    cases limited' with
    | stopped arises ends =>
      exact .stopped (.inr arises) (by rw [ofBytes_andThen, ends])
    | written clear' all' =>
      subst all'
      exact .written (fun error => not_or.2 ⟨clear error, clear' error⟩) rfl

theorem toExcept_of_clear (limited : first.Limited faults bytes)
    (clear : ∀ error, ¬faults error) : first.toExcept = .ok bytes := by
  cases limited with
  | written _ all => exact congrArg toExcept all
  | stopped arises _ => exact absurd arises (clear _)

theorem toExcept_of_arises (limited : first.Limited faults bytes)
    (arises : ∃ error, faults error) : ∃ error, first.toExcept = .error error ∧ faults error := by
  cases limited with
  | written clear _ => exact absurd arises (not_exists.2 clear)
  | @stopped error named ends => exact ⟨error, by simp only [toExcept, ends], named⟩

end Limited

theorem limited_prefixed (bytes : List UInt8) :
    (prefixed bytes).Limited (TooLong bytes.length) (Word.bytesOfNat 4 bytes.length ++ bytes) :=
  ((limited_length bytes.length).andThen (limited_ofBytes bytes)).congr (by simp) rfl

end Emission

end WireSchema
