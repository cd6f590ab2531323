import WireSchema.Proofs.Convert.HasType
import WireSchema.Proofs.Convert.Mirrors
import WireSchema.Proofs.Convert.OfJson

/-! Wide integers in text. Reading at the width of a type and reading at the widest width with a
check of the range behind it come to the same: both accept the numerals whose value is in range. -/

namespace WireSchema

open Outcome

namespace Convert

variable {w : Width} {text path : String}

theorem readUnsigned_eq_ok {n : Nat} : readUnsigned w text = .ok n ↔
    Numeral.Denotes false text.toList n ∧ w.containsNat n = true := by
  rw [← Numeral.natural?_eq_some, readUnsigned, readNumeral_eq_ok]

theorem readSigned_eq_ok {i : Int} : readSigned w text = .ok i ↔
    Numeral.Denotes true text.toList i ∧ w.containsInt i = true := by
  rw [← Numeral.integer?_eq_some, readSigned, readNumeral_eq_ok]

/-- What a wider range reads and the check lets through is what the range itself reads. -/
theorem jsonInteger_string [ToString α] (p : Primitive) (wide : p.isWideInteger = true)
    {scan : String → Option α} {fits widest : α → Bool} {number? : Json → Option α} {n : α}
    (wider : fits n = true → widest n = true) :
    jsonInteger p fits (readNumeral scan widest) number? path (.string text) = .ok n ↔
      readNumeral scan fits text = .ok n := by
  have string (read : String → Convert α) :
      (∃ text', (Json.string text).string? = some text' ∧ read text' = .ok n) ↔
        read text = .ok n := by
    simp [Json.string?]
  rw [jsonInteger_eq_ok, jsonNumeral_eq_ok, if_pos wide, string, readNumeral_eq_ok,
    readNumeral_eq_ok, and_assoc]
  exact and_congr_right fun _ => and_iff_right_of_imp wider

end Convert

namespace Value

/-- Wide integers are read from the numerals in range, whether text is read at once or comes as
JSON, and what is written for an integer in range is read as that integer. -/
theorem reads_wide_integers {w : Width} (wide : w.isWide = true) :
    (∀ text n, Convert.readUnsigned w text = .ok n ↔
      Numeral.Denotes false text.toList n ∧ n < 2 ^ (8 * w.bytes)) ∧
    (∀ text i, Convert.readSigned w text = .ok i ↔ Numeral.Denotes true text.toList i ∧
      -2 ^ (8 * w.bytes - 1) ≤ i ∧ i < 2 ^ (8 * w.bytes - 1)) ∧
    (∀ table text path value,
      (ofJson table (.string text) (.primitive (.unsigned w)) path = .ok value ↔
        ∃ n, Convert.readUnsigned w text = .ok n ∧ .unsigned n = value) ∧
      (ofJson table (.string text) (.primitive (.signed w)) path = .ok value ↔
        ∃ i, Convert.readSigned w text = .ok i ∧ .signed i = value)) ∧
    ∀ table path,
      (∀ n, n < 2 ^ (8 * w.bytes) → ∃ text,
        toJson table (.unsigned n) (.primitive (.unsigned w)) path = .ok (.string text) ∧
          Convert.readUnsigned w text = .ok n) ∧
      ∀ i, -2 ^ (8 * w.bytes - 1) ≤ i → i < 2 ^ (8 * w.bytes - 1) → ∃ text,
        toJson table (.signed i) (.primitive (.signed w)) path = .ok (.string text) ∧
          Convert.readSigned w text = .ok i := by
  refine ⟨fun text n => ?_, fun text i => ?_, fun table text path value => ⟨?_, ?_⟩,
    fun table path => ⟨fun n bound => ?_, fun i lower upper => ?_⟩⟩
  · rw [Convert.readUnsigned_eq_ok, Width.containsNat_iff_lt_pow]
  · rw [Convert.readSigned_eq_ok, Width.containsInt_iff_lt_pow]
  · rw [ofJson_primitive, Primitive.valueOfJson, map_eq_ok]
    have read (n : Nat) : Convert.jsonUnsigned w path (.string text) = .ok n ↔
        Convert.readUnsigned w text = .ok n :=
      Convert.jsonInteger_string (.unsigned w) wide Width.containsNat_w128
    exact exists_congr fun n => and_congr_left fun _ => read n
  · rw [ofJson_primitive, Primitive.valueOfJson, map_eq_ok]
    have read (i : Int) : Convert.jsonSigned w path (.string text) = .ok i ↔
        Convert.readSigned w text = .ok i :=
      Convert.jsonInteger_string (.signed w) wide Width.containsInt_w128
    exact exists_congr fun i => and_congr_left fun _ => read i
  · have fits := Width.containsNat_iff_lt_pow.2 bound
    rw [toJson_primitive, Primitive.jsonOfValue, if_pos fits, if_pos wide]
    exact ⟨_, rfl, Convert.readUnsigned_toString fits⟩
  · have fits := Width.containsInt_iff_lt_pow.2 ⟨lower, upper⟩
    rw [toJson_primitive, Primitive.jsonOfValue, if_pos fits, if_pos wide]
    exact ⟨_, rfl, Convert.readSigned_toString fits⟩

/-- The lowest integer of a width, which no positive one mirrors, with a zero in front. -/
theorem reads_wide_integers_lowest : Width.w64.isWide = true ∧ ∀ table path,
    ofJson table (.string "-09223372036854775808") (.primitive (.signed .w64)) path =
      .ok (.signed (-9223372036854775808)) := by
  obtain ⟨-, -, same, -⟩ := @reads_wide_integers .w64 rfl
  exact ⟨rfl, fun table path => (same table _ path _).2.2 ⟨-9223372036854775808, rfl, rfl⟩⟩

end Value

end WireSchema
