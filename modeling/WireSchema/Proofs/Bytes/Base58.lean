import Mathlib.Data.Nat.Digits.Lemmas
import WireSchema.Bytes.Word
import WireSchema.PublicKey

/-! Base58 text. Bytes come back from their text: the digits of a number give the number, and zero
bytes in front, which no number shows, stand by themselves on both sides. -/

namespace WireSchema

namespace Base58

variable {base : Nat}

theorem digitsWithin_eq (two : 1 < base) {fuel n : Nat} (enough : n < base ^ fuel)
    (tail : List Nat) : digitsWithin base fuel n tail = (Nat.digits base n).reverse ++ tail := by
  induction fuel generalizing n tail with
  | zero =>
    obtain rfl : n = 0 := by simpa using enough
    simp [digitsWithin]
  | succ fuel ih =>
    rw [digitsWithin]
    split
    next zero => simp [zero]
    next positive =>
      have quotient : n / base < base ^ fuel := by
        rw [Nat.div_lt_iff_lt_mul (by omega), ← Nat.pow_succ]
        exact enough
      rw [ih quotient, Nat.digits_def' two (Nat.pos_of_ne_zero positive), List.reverse_cons,
        List.append_assoc]
      rfl

theorem digits_eq (two : 1 < base) (n : Nat) : digits base n = (Nat.digits base n).reverse := by
  have enough : n < base ^ (n.log2 + 1) :=
    Nat.lt_of_lt_of_le Nat.lt_log2_self (Nat.pow_le_pow_left two _)
  rw [digits, digitsWithin_eq two enough, List.append_nil]

theorem value_eq (ds : List Nat) : value base ds = Nat.ofDigits base ds.reverse := by
  suffices ∀ start, ds.foldl (fun n d => base * n + d) start =
      Nat.ofDigits base (ds.reverse ++ [start]) from by
    rw [value, this 0, Nat.ofDigits_append_zero]
  induction ds with
  | nil => simp
  | cons d rest ih =>
    intro start
    rw [List.foldl_cons, ih, List.reverse_cons, List.append_assoc, Nat.ofDigits_append,
      Nat.ofDigits_append]
    simp [Nat.ofDigits_cons, Nat.add_comm]

theorem value_digits (two : 1 < base) (n : Nat) : value base (digits base n) = n := by
  rw [value_eq, digits_eq two, List.reverse_reverse, Nat.ofDigits_digits]

/-- Digits without a zero in front are those of their value. -/
theorem digits_value (two : 1 < base) {ds : List Nat} (small : ∀ d ∈ ds, d < base)
    (leading : ds.head? ≠ some 0) : digits base (value base ds) = ds := by
  rw [digits_eq two, value_eq, Nat.digits_ofDigits base two, List.reverse_reverse]
  · exact fun d member => small d (List.mem_reverse.1 member)
  · intro filled zero
    rw [List.getLast_reverse] at zero
    apply leading
    rw [List.head?_eq_some_head (List.reverse_ne_nil_iff.1 filled), zero]

theorem head?_digits (two : 1 < base) (n : Nat) : (digits base n).head? ≠ some 0 := by
  intro zero
  rw [digits_eq two, List.head?_reverse] at zero
  have positive : n ≠ 0 := by
    rintro rfl
    simp at zero
  have last := Nat.getLast_digit_ne_zero base positive
  rw [List.getLast?_eq_some_getLast (Nat.digits_ne_nil_iff_ne_zero.2 positive)] at zero
  exact last (Option.some.inj zero)

theorem digits_lt (two : 1 < base) {n d : Nat} (member : d ∈ digits base n) : d < base := by
  rw [digits_eq two] at member
  exact Nat.digits_lt_base two (List.mem_reverse.1 member)

/-! ## Letters -/

theorem letter_of_digit : ∀ d < 58, (alphabet.getD d '1').toNat < 128 ∧
    alphabet.idxOf? (alphabet.getD d '1') = some d := by
  decide

theorem readDigits_letters {ds : List Nat} (small : ∀ d ∈ ds, d < 58) (position : Nat) :
    readDigits position (ds.map fun d => alphabet.getD d '1') = .ok ds := by
  induction ds generalizing position with
  | nil => rfl
  | cons d rest ih =>
    obtain ⟨here, below⟩ := List.forall_mem_cons.1 small
    obtain ⟨ascii, index⟩ := letter_of_digit d here
    simp only [List.map_cons, readDigits, if_neg (Nat.not_le.2 ascii), index, ih below]
    rfl

/-! ## Zeros in front -/

section

variable [DecidableEq α] {zero : α}

theorem while_of_head? {rest : List α} (leading : rest.head? ≠ some zero) :
    rest.takeWhile (· = zero) = [] ∧ rest.dropWhile (· = zero) = rest := by
  cases rest with
  | nil => exact ⟨rfl, rfl⟩
  | cons first rest =>
    have other : ¬first = zero := fun same => leading (congrArg some same)
    constructor
    · rw [List.takeWhile_cons, if_neg (by simpa using other)]
    · rw [List.dropWhile_cons, if_neg (by simpa using other)]

/-- Zeros in front are what is taken, and the rest is what is left. -/
theorem while_zeros (count : Nat) {rest : List α} (leading : rest.head? ≠ some zero) :
    (List.replicate count zero ++ rest).takeWhile (· = zero) = List.replicate count zero ∧
      (List.replicate count zero ++ rest).dropWhile (· = zero) = rest := by
  have zeros : ∀ item ∈ List.replicate count zero, decide (item = zero) = true := by
    intro item member
    simpa using List.eq_of_mem_replicate member
  obtain ⟨nothing, all⟩ := while_of_head? leading
  rw [List.takeWhile_append_of_pos zeros, List.dropWhile_append_of_pos zeros, nothing, all]
  exact ⟨List.append_nil _, rfl⟩

theorem replicate_takeWhile (items : List α) :
    List.replicate (items.takeWhile (· = zero)).length zero ++ items.dropWhile (· = zero) =
      items := by
  have zeros : items.takeWhile (· = zero) =
      List.replicate (items.takeWhile (· = zero)).length zero := by
    rw [List.eq_replicate_iff]
    exact ⟨rfl, fun item member => by simpa using List.all_eq_true.1 List.all_takeWhile item member⟩
  rw [← zeros, List.takeWhile_append_dropWhile]

theorem head?_dropWhile (items : List α) : (items.dropWhile (· = zero)).head? ≠ some zero := by
  intro first
  have kept := List.head?_dropWhile_not (fun item => decide (item = zero)) items
  rw [first] at kept
  simp at kept

end

/-- Digits of both bases are those of one number, behind as many zeros. -/
theorem bytesOfDigits_encoded (bytes : List UInt8) :
    bytesOfDigits (List.replicate (bytes.takeWhile (· = 0)).length 0 ++
      digits 58 (value 256 ((bytes.dropWhile (· = 0)).map UInt8.toNat))) = bytes := by
  have leading : ((bytes.dropWhile (· = 0)).map UInt8.toNat).head? ≠ some 0 := by
    rw [List.head?_map]
    intro first
    obtain ⟨byte, here, zero⟩ := Option.map_eq_some_iff.1 first
    obtain rfl : byte = 0 := UInt8.toNat_inj.1 zero
    exact head?_dropWhile bytes here
  have small : ∀ d ∈ (bytes.dropWhile (· = 0)).map UInt8.toNat, d < 256 := by
    intro d member
    obtain ⟨byte, -, rfl⟩ := List.mem_map.1 member
    exact byte.toNat_lt
  have restored : ((bytes.dropWhile (· = 0)).map UInt8.toNat).map UInt8.ofNat =
      bytes.dropWhile (· = 0) := by
    rw [List.map_map]
    exact List.map_id'' (fun byte => UInt8.ofNat_toNat) _
  have number := digits_value (by decide) small leading
  -- From here on the bytes count only as the digits of a number.
  generalize value 256 ((bytes.dropWhile (· = 0)).map UInt8.toNat) = n at number ⊢
  have first : (digits 58 n).head? ≠ some 0 := head?_digits (by decide) n
  obtain ⟨taken, left⟩ := while_zeros (bytes.takeWhile (· = 0)).length first
  simp only [bytesOfDigits, taken, left, List.length_replicate]
  rw [value_digits (by decide), number, restored, replicate_takeWhile]

theorem decode_encode (bytes : List UInt8) : decode (encode bytes) = .ok bytes := by
  have one (count : Nat) : List.replicate count '1' =
      (List.replicate count 0).map fun d => alphabet.getD d '1' := by
    rw [List.map_replicate]
    rfl
  have letters : (encode bytes).toList =
      (List.replicate (bytes.takeWhile (· = 0)).length 0 ++
        digits 58 (value 256 ((bytes.dropWhile (· = 0)).map UInt8.toNat))).map
          fun d => alphabet.getD d '1' := by
    rw [encode, String.toList_ofList, encodeChars, one, List.map_append]
  have small : ∀ d ∈ List.replicate (bytes.takeWhile (· = 0)).length 0 ++
      digits 58 (value 256 ((bytes.dropWhile (· = 0)).map UInt8.toNat)), d < 58 := by
    intro d member
    obtain zero | digit := List.mem_append.1 member
    · rw [List.eq_of_mem_replicate zero]
      decide
    · exact digits_lt (by decide) digit
  rw [decode, letters, readDigits_letters small]
  exact congrArg Except.ok (bytesOfDigits_encoded bytes)

end Base58

theorem PublicKey.ofText_text (key : PublicKey) : PublicKey.ofText key.text = .ok key := by
  rw [ofText, text, Base58.decode_encode]
  exact dif_pos key.size

end WireSchema
