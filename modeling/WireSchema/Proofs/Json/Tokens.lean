import Mathlib.Tactic.SplitIfs
import WireSchema.Json.Printer
import WireSchema.Json.Scan.Value
import WireSchema.Proofs.Text.Numeral

/-! Tokens of a JSON text. A string that is printed is scanned as itself whatever follows its quote,
and an integer is, if what follows cannot belong to a number. -/

namespace WireSchema

namespace Json

namespace Scan

/-! ## Strings -/

theorem hexValue?_digitChar : ∀ n < 16, hexValue? (Nat.digitChar n) = some n := by
  decide

theorem hexUnit?_hexPair {n : Nat} (small : n < 32) :
    hexUnit? '0' '0' (Nat.digitChar (n / 16)) (Nat.digitChar (n % 16)) = some n := by
  have high := hexValue?_digitChar (n / 16) (by omega)
  have low := hexValue?_digitChar (n % 16) (by omega)
  have zero : hexValue? '0' = some 0 := rfl
  simp only [hexUnit?, zero, high, low]
  exact congrArg some (by omega)

/-- Control characters are far from surrogates, and stand for themselves. -/
theorem scanString_control {c : Char} (control : c.toNat < 0x20) (rest : List Char) :
    scanString (['\\', 'u', '0', '0'] ++ hexPair c.toNat ++ rest) = (scanString rest).push c := by
  have low : isLowSurrogate c.toNat = false := by
    simp only [isLowSurrogate, Bool.and_eq_false_iff, decide_eq_false_iff_not]
    omega
  have high : isHighSurrogate c.toNat = false := by
    simp only [isHighSurrogate, Bool.and_eq_false_iff, decide_eq_false_iff_not]
    omega
  have unit := hexUnit?_hexPair control
  simp only [hexPair, List.cons_append, List.nil_append, scanString, unit, low, high,
    Char.ofNat_toNat]
  rfl

theorem scanString_plain {c : Char} (quote : c ≠ '"') (slash : c ≠ '\\') (plain : ¬c.toNat < 0x20)
    (rest : List Char) : scanString (c :: rest) = (scanString rest).push c := by
  rw [scanString.eq_def]
  split
  case h_7 c' rest' same =>
    obtain ⟨rfl, rfl⟩ := List.cons.inj same
    rw [if_neg plain]
  all_goals simp_all

/-- Whatever a character is written as is scanned as that character. -/
theorem scanString_escapeChar (c : Char) (rest : List Char) :
    scanString (escapeChar c ++ rest) = (scanString rest).push c := by
  unfold escapeChar
  split_ifs with quote slash back feed line carriage tab control
  · subst quote
    rfl
  · subst slash
    rfl
  · subst back
    rfl
  · subst feed
    rfl
  · subst line
    rfl
  · subst carriage
    rfl
  · subst tab
    rfl
  · exact scanString_control control rest
  · exact scanString_plain quote slash control rest

theorem scanString_stringChars (text rest : List Char) :
    scanString (text.flatMap escapeChar ++ '"' :: rest) = .closed (.ok text) rest := by
  induction text with
  | nil => rfl
  | cons c text ih =>
    rw [List.flatMap_cons, List.append_assoc, scanString_escapeChar, ih]
    rfl

/-! ## Integers -/

def endsNumber (c : Char) : Bool :=
  !c.isDigit && !(['.', 'e', 'E'].contains c)

def EndsNumber (rest : List Char) : Prop :=
  ∀ c ∈ rest.head?, endsNumber c = true

theorem isDigit_of_mem {n : Nat} : ∀ c ∈ Nat.toDigits 10 n, c.isDigit = true :=
  fun _ member => Nat.isDigit_of_mem_toDigits (by decide) (by decide) member

theorem exists_first_digit (n : Nat) :
    ∃ c digits, Nat.toDigits 10 n = c :: digits ∧ c.isDigit = true := by
  obtain ⟨c, digits, spelled⟩ := List.exists_cons_of_ne_nil (@Nat.toDigits_ne_nil n 10)
  exact ⟨c, digits, spelled, isDigit_of_mem c (spelled ▸ List.mem_cons_self)⟩

theorem digits_of_toDigits {n : Nat} {rest : List Char} (ends : EndsNumber rest) :
    (Nat.toDigits 10 n ++ rest).takeWhile Char.isDigit = Nat.toDigits 10 n ∧
      (Nat.toDigits 10 n ++ rest).dropWhile Char.isDigit = rest := by
  rw [List.takeWhile_append_of_pos isDigit_of_mem, List.dropWhile_append_of_pos isDigit_of_mem]
  cases rest with
  | nil => simp
  | cons c rest =>
    have other : c.isDigit = false := by
      have ended := ends c rfl
      simp only [endsNumber, Bool.and_eq_true, Bool.not_eq_true'] at ended
      exact ended.1
    simp [other]

theorem scanAfterWhole_of_ends {numeral : Numeral} {rest : List Char} (ends : EndsNumber rest) :
    scanAfterWhole numeral rest = .closed numeral rest := by
  cases rest with
  | nil => rfl
  | cons c rest =>
    have ended := ends c rfl
    have marks : c ≠ '.' ∧ c ≠ 'e' ∧ c ≠ 'E' := by
      refine ⟨?_, ?_, ?_⟩ <;> rintro rfl <;> exact absurd ended (by decide)
    obtain ⟨point, small, large⟩ := marks
    rw [scanAfterWhole.eq_def]
    split <;> simp_all [scanAfterFraction]

/-- No number but zero starts with a zero. -/
theorem eq_zero_of_toDigits {n : Nat} {rest : List Char}
    (zero : Nat.toDigits 10 n = '0' :: rest) : n = 0 := by
  induction n using Nat.strongRecOn generalizing rest with
  | ind n ih =>
    by_cases small : n < 10
    · have first : n.digitChar = '0' := by
        rw [Nat.toDigits_of_lt_base small] at zero
        exact (List.cons.inj zero).1
      have only : ∀ m < 10, m.digitChar = '0' → m = 0 := by decide
      exact only n small first
    · have large : 10 ≤ n := Nat.le_of_not_lt small
      rw [Nat.toDigits_of_base_le (by decide) large] at zero
      obtain ⟨head, tail, digits⟩ := List.exists_cons_of_ne_nil (@Nat.toDigits_ne_nil (n / 10) 10)
      rw [digits, List.cons_append] at zero
      rw [(List.cons.inj zero).1] at digits
      have quotient := ih (n / 10) (by omega) digits
      omega

theorem toDigits_ne_zero_cons {n : Nat} {first : Char} {rest : List Char} :
    Nat.toDigits 10 n ≠ '0' :: first :: rest := by
  intro same
  obtain rfl := eq_zero_of_toDigits same
  cases same

theorem scanNumber_toDigits {n : Nat} {rest : List Char} (negative : Bool)
    (ends : EndsNumber rest) :
    scanNumber negative (Nat.toDigits 10 n ++ rest) =
      .closed ⟨negative, Nat.toDigits 10 n, none, none⟩ rest := by
  obtain ⟨taken, left⟩ := digits_of_toDigits (n := n) ends
  rw [scanNumber, taken, left]
  split
  next none => exact absurd none Nat.toDigits_ne_nil
  next zero => exact absurd zero toDigits_ne_zero_cons
  next => exact scanAfterWhole_of_ends ends

theorem value_natural {n : Nat} (small : n < 2 ^ (64 : Nat)) :
    Numeral.value ⟨false, Nat.toDigits 10 n, none, none⟩ = .ok (.int n) := by
  simp only [Numeral.value, Numeral.digitsValue_toDigits]
  exact if_pos ⟨rfl, rfl, Bool.false_ne_true, small⟩

theorem value_negative {n : Nat} (small : n < 2 ^ (63 : Nat)) :
    Numeral.value ⟨true, Nat.toDigits 10 (n + 1), none, none⟩ = .ok (.int (Int.negSucc n)) := by
  simp only [Numeral.value, Numeral.digitsValue_toDigits]
  rw [if_neg fun met => absurd trivial met.2.2.1]
  exact if_pos ⟨rfl, rfl, trivial, Nat.succ_pos n, small⟩

/-! ## Blanks -/

theorem skipBlank_append {gap : List Char} (blank : ∀ c ∈ gap, isBlank c = true)
    (text : List Char) : skipBlank (gap ++ text) = skipBlank text :=
  List.dropWhile_append_of_pos blank

theorem skipBlank_cons {c : Char} (dark : isBlank c = false) (text : List Char) :
    skipBlank (c :: text) = c :: text := by
  rw [skipBlank, List.dropWhile_cons, if_neg (Bool.eq_false_iff.1 dark)]

theorem scanValue_append {gap : List Char} (blank : ∀ c ∈ gap, isBlank c = true) (fuel : Nat)
    (text : List Char) : scanValue fuel (gap ++ text) = scanValue fuel text := by
  cases fuel with
  | zero => rfl
  | succ fuel => rw [scanValue, scanValue, skipBlank_append blank]

end Scan

end Json

def Number.IsInteger : Number → Prop
  | .int _ => True
  | .float _ => False

def Number.IsWhole : Number → Prop
  | .int i => Json.minSigned ≤ i ∧ i < (2 ^ (64 : Nat) : Nat)
  | .float _ => False

theorem Number.IsWhole.isInteger {n : Number} (whole : n.IsWhole) : n.IsInteger := by
  cases n with
  | int i => trivial
  | float x => exact whole

namespace Json

namespace Scan

theorem digit_ne {c mark : Char} (digit : c.isDigit = true) (other : mark.isDigit = false) :
    c ≠ mark := by
  rintro rfl
  rw [digit] at other
  cases other

theorem isBlank_of_isDigit {c : Char} (digit : c.isDigit = true) : isBlank c = false := by
  simp [isBlank, digit_ne digit]

theorem scanValue_digit {c : Char} (digit : c.isDigit = true) (fuel : Nat) (rest : List Char) :
    scanValue (fuel + 1) (c :: rest) = number false (c :: rest) := by
  rw [scanValue, skipBlank_cons (isBlank_of_isDigit digit)]
  split <;> simp_all [digit_ne digit]

/-- An integer is read as itself where it ends. -/
theorem scanValue_number {n : Number} (whole : n.IsWhole) (fuel : Nat) {rest : List Char}
    (ends : EndsNumber rest) :
    scanValue (fuel + 1) ((numberText n).toList ++ rest) = (.number (.ok n), some rest) := by
  cases n with
  | float x => exact whole.elim
  | int i =>
    obtain ⟨lower, upper⟩ := whole
    cases i with
    | ofNat n =>
      have scanned := @scanNumber_toDigits n rest false ends
      have value := value_natural (Int.ofNat_lt.1 upper)
      rw [numberText, Numeral.toList_ofNat]
      obtain ⟨c, digits, spelled, digit⟩ := exists_first_digit n
      rw [spelled] at scanned value ⊢
      rw [List.cons_append, scanValue_digit digit, number, ← List.cons_append, scanned]
      simp only [value]
      rfl
    | negSucc n =>
      have scanned := @scanNumber_toDigits (n + 1) rest true ends
      have small : n < 2 ^ (63 : Nat) := by
        simp only [minSigned] at lower
        omega
      rw [numberText, Numeral.toList_negSucc, List.cons_append, scanValue, skipBlank_cons rfl]
      simp only [number, scanned, value_negative small]

end Scan

end Json

end WireSchema
