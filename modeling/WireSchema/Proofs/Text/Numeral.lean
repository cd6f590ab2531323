import Mathlib.Data.List.Induction
import Mathlib.Data.Nat.Digits.Defs
import WireSchema.Text.Numeral

/-! Decimal text of numbers. A numeral is digits behind an optional sign; numerals are read, and
nothing else is. What is written for a number is read as that number. -/

namespace WireSchema

namespace Numeral

theorem digitsValue_toDigits (n : Nat) : digitsValue (Nat.toDigits 10 n) = n :=
  Nat.ofDigitChars_toDigits (by decide) (by decide)

theorem digits?_toDigits (n : Nat) : digits? (Nat.toDigits 10 n) = some n := by
  have digits : (Nat.toDigits 10 n).all Char.isDigit = true :=
    List.all_eq_true.2 fun c member => Nat.isDigit_of_mem_toDigits (by decide) (by decide) member
  rw [digits?, if_pos ⟨Nat.toDigits_ne_nil, digits⟩, digitsValue_toDigits]

/-- Digits are no signs. -/
theorem toDigits_ne_cons {n : Nat} {sign : Char} (other : sign.isDigit = false) (rest : List Char) :
    Nat.toDigits 10 n ≠ sign :: rest := by
  intro same
  have digit : sign.isDigit = true :=
    Nat.isDigit_of_mem_toDigits (by decide) (by decide) (same ▸ List.mem_cons_self)
  rw [other] at digit
  cases digit

theorem natural?_toString (n : Nat) : natural? (toString n) = some n := by
  rw [natural?, Nat.toString_eq_repr, Nat.toList_repr]
  split
  next rest signed => exact absurd signed (toDigits_ne_cons (by decide) rest)
  next => exact digits?_toDigits n

theorem toList_ofNat (n : Nat) : (toString (Int.ofNat n)).toList = Nat.toDigits 10 n := by
  rw [Int.toString_eq_repr]
  exact Nat.toList_repr

theorem toList_negSucc (n : Nat) :
    (toString (Int.negSucc n)).toList = '-' :: Nat.toDigits 10 (n + 1) := by
  rw [Int.toString_eq_repr, Int.repr, String.toList_append, Nat.toList_repr]
  rfl

theorem integer?_toString (i : Int) : integer? (toString i) = some i := by
  rw [integer?]
  cases i with
  | ofNat n =>
    rw [toList_ofNat]
    split
    next rest signed => exact absurd signed (toDigits_ne_cons (by decide) rest)
    next rest signed => exact absurd signed (toDigits_ne_cons (by decide) rest)
    next => rw [digits?_toDigits, Option.map_some]
  | negSucc n =>
    rw [toList_negSucc]
    simp only [digits?_toDigits, Option.map_some]
    rfl

/-! ## Numerals -/

structure IsDecimal (text : List Char) (n : Nat) : Prop where
  filled : text ≠ []
  digits : ∀ c ∈ text, c.isDigit = true
  value : Nat.ofDigits 10 (text.map digitValue).reverse = n

/-- A text denotes an integer: digits alone or behind a plus sign, and where integers are signed
also behind a minus sign. -/
inductive Denotes (signed : Bool) : List Char → Int → Prop where
  | plain {text : List Char} {n : Nat} (decimal : IsDecimal text n) : Denotes signed text n
  | plus {text : List Char} {n : Nat} (decimal : IsDecimal text n) : Denotes signed ('+' :: text) n
  | minus {text : List Char} {n : Nat} (decimal : IsDecimal text n) (negative : signed = true) :
      Denotes signed ('-' :: text) (-n)

theorem digitsValue_eq (text : List Char) :
    digitsValue text = Nat.ofDigits 10 (text.map digitValue).reverse := by
  induction text using List.reverseRecOn with
  | nil => rfl
  | append_singleton rest c ih =>
    have last : digitsValue (rest ++ [c]) = 10 * digitsValue rest + digitValue c :=
      List.foldl_append
    rw [last, ih, List.map_append, List.map_singleton, List.reverse_append, List.reverse_singleton,
      List.singleton_append, Nat.ofDigits_cons, Nat.add_comm]

theorem digits?_eq_some {text : List Char} {n : Nat} :
    digits? text = some n ↔ IsDecimal text n := by
  rw [digits?]
  constructor
  · intro read
    split at read
    next shape =>
      rw [digitsValue_eq] at read
      exact ⟨shape.1, List.all_eq_true.1 shape.2, Option.some.inj read⟩
    next => cases read
  · rintro ⟨filled, digits, rfl⟩
    rw [if_pos ⟨filled, List.all_eq_true.2 digits⟩, digitsValue_eq]

/-- Signs are no digits. -/
theorem not_isDecimal {sign : Char} {text : List Char} {n : Nat} (other : sign.isDigit = false) :
    ¬IsDecimal (sign :: text) n := by
  intro decimal
  have digit := decimal.digits sign List.mem_cons_self
  rw [other] at digit
  cases digit

theorem natural?_eq_some {text : String} {n : Nat} :
    natural? text = some n ↔ Denotes false text.toList n := by
  rw [natural?]
  generalize text.toList = chars
  split
  next digits =>
    rw [digits?_eq_some]
    refine ⟨.plus, fun denotes => ?_⟩
    generalize same : (n : Int) = i at denotes
    cases denotes with
    | plain decimal => exact absurd decimal (not_isDecimal (by decide))
    | plus decimal => exact Int.ofNat.inj same ▸ decimal
  next unsigned =>
    rw [digits?_eq_some]
    refine ⟨.plain, fun denotes => ?_⟩
    generalize same : (n : Int) = i at denotes
    cases denotes with
    | plain decimal => exact Int.ofNat.inj same ▸ decimal
    | plus => exact absurd rfl (unsigned _)
    | minus _ negative => cases negative

theorem map_digits?_eq_some {text : List Char} {f : Nat → Int} {i : Int} :
    (digits? text).map f = some i ↔ ∃ n, IsDecimal text n ∧ f n = i := by
  simp only [Option.map_eq_some_iff, digits?_eq_some]

theorem integer?_eq_some {text : String} {i : Int} :
    integer? text = some i ↔ Denotes true text.toList i := by
  rw [integer?]
  generalize text.toList = chars
  split
  next digits =>
    rw [map_digits?_eq_some]
    refine ⟨fun ⟨n, decimal, same⟩ => same ▸ .plus decimal, fun denotes => ?_⟩
    cases denotes with
    | plain decimal => exact absurd decimal (not_isDecimal (by decide))
    | plus decimal => exact ⟨_, decimal, rfl⟩
  next digits =>
    rw [map_digits?_eq_some]
    refine ⟨fun ⟨n, decimal, same⟩ => same ▸ .minus decimal rfl, fun denotes => ?_⟩
    cases denotes with
    | plain decimal => exact absurd decimal (not_isDecimal (by decide))
    | minus decimal => exact ⟨_, decimal, rfl⟩
  next noPlus noMinus =>
    rw [map_digits?_eq_some]
    refine ⟨fun ⟨n, decimal, same⟩ => same ▸ .plain decimal, fun denotes => ?_⟩
    cases denotes with
    | plain decimal => exact ⟨_, decimal, rfl⟩
    | plus => exact absurd rfl (noPlus _)
    | minus => exact absurd rfl (noMinus _)

end Numeral

end WireSchema
