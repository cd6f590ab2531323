import WireSchema.Convert.Access
import WireSchema.Proofs.Bytes.Base58
import WireSchema.Proofs.Outcome

/-! Texts of public keys. Base58 has one text for any bytes: letters whose number is that of the
bytes, behind a one for each zero byte in front. So a key is read from its own text and from no
other, and what is left to go wrong is a foreign character or a length that no key has. -/

namespace WireSchema

namespace Base58

def digitOf (c : Char) : Nat :=
  alphabet.idxOf c

/-- A text spells bytes: its letters are those of the alphabet, it has as many ones in front as the
bytes have zeros, and both are the same number, the most significant digit first. -/
structure Spells (text : List Char) (bytes : List UInt8) : Prop where
  letters : ∀ c ∈ text, c ∈ alphabet
  zeros : (text.takeWhile (· = '1')).length = (bytes.takeWhile (· = 0)).length
  number : Nat.ofDigits 58 (text.map digitOf).reverse =
    Nat.ofDigits 256 (bytes.map UInt8.toNat).reverse

/-! ## Digits behind zeros -/

variable {base : Nat}

theorem value_zeros (count : Nat) (ds : List Nat) :
    value base (List.replicate count 0 ++ ds) = value base ds := by
  rw [value_eq, value_eq, List.reverse_append, List.reverse_replicate, Nat.ofDigits_append,
    Nat.ofDigits_replicate_zero, Nat.mul_zero, Nat.add_zero]

/-- The digits of a number behind zeros are known by what is in front and by their value. -/
theorem eq_padded_iff (two : 1 < base) {ds : List Nat} {count n : Nat} :
    ds = List.replicate count 0 ++ digits base n ↔ (∀ d ∈ ds, d < base) ∧
      (ds.takeWhile (· = 0)).length = count ∧ value base ds = n := by
  constructor
  · rintro rfl
    have zeros := (while_zeros count (head?_digits two n)).1
    refine ⟨fun d member => ?_, ?_, ?_⟩
    · obtain zero | digit := List.mem_append.1 member
      · rw [List.eq_of_mem_replicate zero]
        omega
      · exact digits_lt two digit
    · rw [zeros, List.length_replicate]
    · rw [value_zeros, value_digits two]
  · rintro ⟨small, rfl, rfl⟩
    have padded : List.replicate (ds.takeWhile (· = 0)).length 0 ++ ds.dropWhile (· = 0) = ds :=
      replicate_takeWhile ds
    have rest : digits base (value base ds) = ds.dropWhile (· = 0) := by
      rw [← padded, value_zeros, padded]
      refine digits_value two (fun d member => ?_) (head?_dropWhile ds)
      exact small d (List.dropWhile_suffix _ |>.mem member)
    rw [rest, padded]

/-! ## Letters -/

theorem digitOf_lt {c : Char} (letter : c ∈ alphabet) : digitOf c < 58 :=
  List.idxOf_lt_length_iff.2 letter

theorem letter_digitOf {c : Char} (letter : c ∈ alphabet) :
    alphabet.getD (digitOf c) '1' = c := by
  have inside : alphabet.idxOf c < alphabet.length := List.idxOf_lt_length_iff.2 letter
  rw [digitOf, List.getD_eq_getElem?_getD, List.getElem?_eq_getElem inside, Option.getD_some,
    List.getElem_idxOf inside]

theorem map_letter_digitOf {text : List Char} (letters : ∀ c ∈ text, c ∈ alphabet) :
    (text.map digitOf).map (fun d => alphabet.getD d '1') = text := by
  rw [List.map_map]
  exact (List.map_congr_left fun c member => letter_digitOf (letters c member)).trans
    (List.map_id text)

/-- A one is the zero among the letters. -/
theorem length_ones (text : List Char) :
    ((text.map digitOf).takeWhile (· = 0)).length = (text.takeWhile (· = '1')).length := by
  have zero (c : Char) : digitOf c = 0 ↔ c = '1' := by
    have first : digitOf '1' = 0 := by decide
    constructor
    · intro same
      by_contra other
      have later : digitOf c = (alphabet.drop 1).idxOf c + 1 := List.idxOf_cons_ne _ (Ne.symm other)
      omega
    · rintro rfl
      exact first
  rw [List.takeWhile_map, List.length_map]
  simp only [Function.comp_def, zero]

theorem readDigits_eq_ok {position : Nat} {text : List Char} {ds : List Nat} :
    readDigits position text = .ok ds ↔ (∀ c ∈ text, c ∈ alphabet) ∧ text.map digitOf = ds := by
  have small : alphabet.all (fun c => c.toNat < 128) = true := by decide
  have ascii : ∀ c ∈ alphabet, c.toNat < 128 := fun c member =>
    of_decide_eq_true (List.all_eq_true.1 small c member)
  induction text generalizing position ds with
  | nil => simp [readDigits]
  | cons c rest ih =>
    by_cases letter : c ∈ alphabet
    · have found : alphabet.idxOf? c = some (digitOf c) := by
        obtain ⟨d, found⟩ := Option.ne_none_iff_exists'.1
          (List.idxOf?_eq_none_iff.not.2 (not_not.2 letter))
        rw [digitOf, List.idxOf_eq_getD_idxOf?, found, Option.getD_some]
      have small := ascii c letter
      rw [readDigits, if_neg (Nat.not_le.2 small), found]
      simp only [List.forall_mem_cons, letter, true_and, List.map_cons]
      constructor
      · intro read
        obtain ⟨others, below, done⟩ := Outcome.bind_eq_ok.1 read
        obtain ⟨letters, rfl⟩ := ih.1 below
        exact ⟨letters, Outcome.pure_eq_ok.1 done⟩
      · rintro ⟨letters, rfl⟩
        rw [ih.2 ⟨letters, rfl⟩]
        rfl
    · refine iff_of_false (fun read => ?_) fun all => letter (all.1 c List.mem_cons_self)
      rw [readDigits] at read
      split at read
      next => cases read
      next =>
        rw [List.idxOf?_eq_none_iff.2 letter] at read
        cases read

/-! ## Bytes and their text -/

theorem toNat_bytesOfDigits (ds : List Nat) :
    (bytesOfDigits ds).map UInt8.toNat =
      List.replicate (ds.takeWhile (· = 0)).length 0 ++ digits 256 (value 58 ds) := by
  have rest : value 58 (ds.dropWhile (· = 0)) = value 58 ds := by
    rw [← value_zeros (ds.takeWhile (· = 0)).length, replicate_takeWhile]
  have small : ∀ d ∈ digits 256 (value 58 ds), (UInt8.ofNat d).toNat = d := fun d member =>
    UInt8.toNat_ofNat_of_lt' (digits_lt (by decide) member)
  rw [bytesOfDigits, rest, List.map_append, List.map_replicate, List.map_map]
  congr 1
  exact (List.map_congr_left small).trans (List.map_id _)

theorem length_zeros (bytes : List UInt8) :
    ((bytes.map UInt8.toNat).takeWhile (· = 0)).length = (bytes.takeWhile (· = 0)).length := by
  have zero (byte : UInt8) : byte.toNat = 0 ↔ byte = 0 := UInt8.toNat_inj (b := 0)
  rw [List.takeWhile_map, List.length_map]
  simp only [Function.comp_def, zero]

theorem bytesOfDigits_eq_iff {ds : List Nat} {bytes : List UInt8} :
    bytesOfDigits ds = bytes ↔
      (ds.takeWhile (· = 0)).length = (bytes.takeWhile (· = 0)).length ∧
        value 58 ds = value 256 (bytes.map UInt8.toNat) := by
  have small : ∀ d ∈ bytes.map UInt8.toNat, d < 256 := by
    intro d member
    obtain ⟨byte, -, rfl⟩ := List.mem_map.1 member
    exact byte.toNat_lt
  have same : bytesOfDigits ds = bytes ↔ bytes.map UInt8.toNat =
      List.replicate (ds.takeWhile (· = 0)).length 0 ++ digits 256 (value 58 ds) := by
    rw [← toNat_bytesOfDigits, List.map_inj_right fun _ _ => UInt8.toNat_inj.1]
    exact eq_comm
  rw [same, eq_padded_iff (by decide), length_zeros]
  exact (and_iff_right small).trans (and_congr eq_comm eq_comm)

theorem decode_eq_ok {text : String} {bytes : List UInt8} :
    decode text = .ok bytes ↔ Spells text.toList bytes := by
  have spells : Spells text.toList bytes ↔ (∀ c ∈ text.toList, c ∈ alphabet) ∧
      bytesOfDigits (text.toList.map digitOf) = bytes := by
    rw [bytesOfDigits_eq_iff, length_ones, value_eq, value_eq]
    exact ⟨fun ⟨letters, zeros, number⟩ => ⟨letters, zeros, number⟩,
      fun ⟨letters, zeros, number⟩ => ⟨letters, zeros, number⟩⟩
  rw [spells]
  constructor
  · intro decoded
    obtain ⟨ds, read, done⟩ := Outcome.bind_eq_ok.1 decoded
    obtain ⟨letters, rfl⟩ := readDigits_eq_ok.1 read
    exact ⟨letters, Outcome.pure_eq_ok.1 done⟩
  · rintro ⟨letters, rfl⟩
    rw [decode, readDigits_eq_ok.2 ⟨letters, rfl⟩]
    rfl

/-- Two texts of the same bytes have the same digits. -/
theorem Spells.unique {text text' : List Char} {bytes : List UInt8} (spells : Spells text bytes)
    (spells' : Spells text' bytes) : text = text' := by
  have padded {text : List Char} (spells : Spells text bytes) : text.map digitOf =
      List.replicate (bytes.takeWhile (· = 0)).length 0 ++
        digits 58 (value 256 (bytes.map UInt8.toNat)) := by
    refine (eq_padded_iff (by decide)).2 ⟨fun d member => ?_, ?_, ?_⟩
    · obtain ⟨c, inside, rfl⟩ := List.mem_map.1 member
      exact digitOf_lt (spells.letters c inside)
    · rw [length_ones, spells.zeros]
    · rw [value_eq, spells.number, value_eq]
  rw [← map_letter_digitOf spells.letters, padded spells, ← padded spells',
    map_letter_digitOf spells'.letters]

theorem encode_eq_iff {text : String} {bytes : List UInt8} :
    encode bytes = text ↔ Spells text.toList bytes := by
  have own := decode_eq_ok.1 (decode_encode bytes)
  constructor
  · rintro rfl
    exact own
  · intro spells
    exact String.toList_inj.1 (own.unique spells)

theorem exists_decode_eq_error {text : String} :
    (∃ cause, decode text = .error cause) ↔ ∃ c ∈ text.toList, c ∉ alphabet := by
  have accepted : (∃ bytes, decode text = .ok bytes) ↔ ∀ c ∈ text.toList, c ∈ alphabet := by
    constructor
    · rintro ⟨bytes, decoded⟩
      exact (decode_eq_ok.1 decoded).letters
    · intro letters
      refine ⟨bytesOfDigits (text.toList.map digitOf), ?_⟩
      rw [decode, readDigits_eq_ok.2 ⟨letters, rfl⟩]
      rfl
  have foreign := not_congr accepted
  simp only [not_forall, exists_prop] at foreign
  rw [← foreign]
  cases decode text with
  | ok bytes => simp
  | error cause => simp

end Base58

namespace PublicKey

theorem ofBytes_eq_ok {bytes : List UInt8} {key : PublicKey} :
    ofBytes bytes = .ok key ↔ bytes = key.bytes := by
  rw [ofBytes]
  constructor
  · intro made
    split at made
    next size => rw [← Except.ok.inj made]
    next => cases made
  · rintro rfl
    exact dif_pos key.size

theorem ofText_eq_ok {text : String} {key : PublicKey} :
    ofText text = .ok key ↔ Base58.Spells text.toList key.bytes := by
  rw [← Base58.decode_eq_ok, ofText]
  cases decoded : Base58.decode text with
  | ok bytes =>
    show ofBytes bytes = .ok key ↔ _
    rw [ofBytes_eq_ok, Except.ok.injEq]
  | error cause => simp

theorem ofText_eq_wrongLength {text : String} {length : Nat} :
    ofText text = .error (.wrongLength length) ↔
      length ≠ 32 ∧ ∃ bytes, Base58.Spells text.toList bytes ∧ bytes.length = length := by
  simp only [← Base58.decode_eq_ok]
  rw [ofText]
  cases decoded : Base58.decode text with
  | ok bytes =>
    show ofBytes bytes = _ ↔ _
    simp only [ofBytes, Except.ok.injEq, exists_eq_left']
    by_cases size : bytes.length = 32
    · rw [dif_pos size]
      refine iff_of_false (fun failed => by cases failed) ?_
      rintro ⟨other, same⟩
      exact other (same ▸ size)
    · rw [dif_neg size, Except.error.injEq, KeyError.wrongLength.injEq]
      exact ⟨fun same => ⟨same ▸ size, same⟩, And.right⟩
  | error cause => simp

theorem ofText_eq_invalid {text : String} :
    (∃ cause, ofText text = .error (.invalidBase58 cause)) ↔
      ∃ c ∈ text.toList, c ∉ Base58.alphabet := by
  rw [← Base58.exists_decode_eq_error, ofText]
  refine exists_congr fun cause => ?_
  cases decoded : Base58.decode text with
  | ok bytes =>
    show ofBytes bytes = _ ↔ _
    rw [ofBytes]
    split <;> simp
  | error cause' => simp

theorem readPublicKey_eq_ok {text : String} {key : PublicKey} :
    Convert.readPublicKey text = .ok key ↔ ofText text = .ok key := by
  rw [Convert.readPublicKey]
  cases ofText text with
  | ok other =>
    show (.ok other : Convert PublicKey) = .ok key ↔ _
    rw [Except.ok.injEq, Except.ok.injEq]
  | error cause => simp [Convert.mismatch]

/-- A key is read from its own text alone, which is the base58 of its bytes. Any other text has a
foreign character, or it is the base58 of more or fewer bytes than a key has. -/
theorem ofText_exact (text : String) :
    (∀ key, ofText text = .ok key ↔ key.text = text) ∧
      (∀ key : PublicKey, key.text = text ↔ Base58.Spells text.toList key.bytes) ∧
      (∀ key, Convert.readPublicKey text = .ok key ↔ key.text = text) ∧
      (∀ length, ofText text = .error (.wrongLength length) ↔
        length ≠ 32 ∧ ∃ bytes, Base58.Spells text.toList bytes ∧ bytes.length = length) ∧
      ((∃ cause, ofText text = .error (.invalidBase58 cause)) ↔
        ∃ c ∈ text.toList, c ∉ Base58.alphabet) := by
  have own (key : PublicKey) : key.text = text ↔ Base58.Spells text.toList key.bytes :=
    Base58.encode_eq_iff
  have read (key : PublicKey) : ofText text = .ok key ↔ key.text = text :=
    ofText_eq_ok.trans (own key).symm
  exact ⟨read, own, fun key => readPublicKey_eq_ok.trans (read key),
    fun _ => ofText_eq_wrongLength, ofText_eq_invalid⟩

example : ofText "2g" = .error (.wrongLength 1) ∧
    ofText "0OIl" = .error (.invalidBase58 (.invalidCharacter '0' 0)) := by decide

end PublicKey

end WireSchema
