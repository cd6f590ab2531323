import WireSchema.Proofs.Json.Tokens
import WireSchema.Text.Quoted

/-! Reading quoted text. What is written between quotes is read as the text it was written for,
whatever follows the closing quote. -/

namespace WireSchema.Quoted

def escaped? : Char → Option Char
  | '"' => some '"'
  | '\'' => some '\''
  | '\\' => some '\\'
  | 'n' => some '\n'
  | 'r' => some '\r'
  | 't' => some '\t'
  | '0' => some '\x00'
  | _ => none

def push (c : Char) : Option (List Char × List Char) → Option (List Char × List Char) :=
  Option.map fun (text, rest) => (c :: text, rest)

/-- The text up to the closing quote, and what follows. Inside an escape by code point, `code` is
the value of the digits so far. -/
def scan : (code : Option Nat) → List Char → Option (List Char × List Char)
  | _, [] => none
  | none, '"' :: rest => some ([], rest)
  | none, '\\' :: 'u' :: '\x7b' :: rest => scan (some 0) rest
  | none, '\\' :: c :: rest => (escaped? c).bind fun original => push original (scan none rest)
  | none, c :: rest => push c (scan none rest)
  | some code, '\x7d' :: rest => push (Char.ofNat code) (scan none rest)
  | some code, c :: rest =>
    (Json.Scan.hexValue? c).bind fun digit => scan (some (16 * code + digit)) rest

theorem digitChar_ne : ∀ digit < 16, Nat.digitChar digit ≠ '\x7d' := by
  decide

theorem scan_digit {digit : Nat} (small : digit < 16) (code : Nat) (rest : List Char) :
    scan (some code) (Nat.digitChar digit :: rest) = scan (some (16 * code + digit)) rest := by
  rw [scan]
  · rw [Json.Scan.hexValue?_digitChar digit small, Option.bind_some]
  · exact digitChar_ne digit small

/-- The digits of a code point are read one after the other, the highest first. -/
theorem scan_hexDigits (n : Nat) (rest : List Char) :
    scan (some 0) (hexDigits n ++ rest) = scan (some n) rest := by
  rw [hexDigits]
  induction n using Nat.strongRecOn generalizing rest with
  | ind n ih =>
    by_cases small : n < 16
    · rw [Nat.toDigits_of_lt_base small]
      exact scan_digit small 0 rest |>.trans (by rw [Nat.mul_zero, Nat.zero_add])
    · rw [Nat.toDigits_of_base_le (by decide) (Nat.le_of_not_lt small), List.append_assoc,
        ih (n / 16) (Nat.div_lt_self (by omega) (by decide)), List.singleton_append,
        scan_digit (Nat.mod_lt n (by decide)), Nat.div_add_mod]

theorem scan_codePoint (c : Char) (rest : List Char) :
    scan none (codePoint c ++ rest) = push c (scan none rest) := by
  have digits := scan_hexDigits c.toNat ('\x7d' :: rest)
  rw [codePoint, List.append_assoc, List.singleton_append]
  simp only [List.cons_append, scan] at digits ⊢
  rw [digits, Char.ofNat_toNat]

theorem scan_plain {c : Char} (mark : c ≠ '"') (slash : c ≠ '\\') (rest : List Char) :
    scan none (c :: rest) = push c (scan none rest) := by
  rw [scan.eq_def]
  split <;> simp_all

/-- Whatever a character is written as is read as that character. -/
theorem scan_escapeChar (c : Char) (rest : List Char) :
    scan none (escapeChar '"' c ++ rest) = push c (scan none rest) := by
  unfold escapeChar
  split_ifs with special line carriage tab nul hidden
  · obtain rfl | rfl : c = '"' ∨ c = '\\' := by simpa using special
    · rfl
    · rfl
  · subst line
    rfl
  · subst carriage
    rfl
  · subst tab
    rfl
  · subst nul
    rfl
  · exact scan_codePoint c rest
  · have plain : c ≠ '"' ∧ c ≠ '\\' := by simpa using special
    exact scan_plain plain.1 plain.2 rest

theorem scan_flatMap_escapeChar (text rest : List Char) :
    scan none (text.flatMap (escapeChar '"') ++ '"' :: rest) = some (text, rest) := by
  induction text with
  | nil => rfl
  | cons c text ih =>
    rw [List.flatMap_cons, List.append_assoc, scan_escapeChar, ih]
    rfl

/-! ## Characters of a quoted text -/

theorem exists_digit_of_mem_hexDigits {n : Nat} {c : Char} (member : c ∈ hexDigits n) :
    ∃ digit < 16, Nat.digitChar digit = c := by
  rw [hexDigits] at member
  induction n using Nat.strongRecOn with
  | ind n ih =>
    by_cases small : n < 16
    · rw [Nat.toDigits_of_lt_base small, List.mem_singleton] at member
      exact ⟨n, small, member.symm⟩
    · rw [Nat.toDigits_of_base_le (by decide) (Nat.le_of_not_lt small)] at member
      obtain higher | last := List.mem_append.1 member
      · exact ih (n / 16) (Nat.div_lt_self (by omega) (by decide)) higher
      · exact ⟨n % 16, Nat.mod_lt n (by decide), (List.mem_singleton.1 last).symm⟩

/-- Quoting leaves no line break. -/
theorem notMem_quote (text : String) : '\n' ∉ (quote text).toList := by
  have digits (n : Nat) : '\n' ∉ hexDigits n := by
    have other : ∀ digit < 16, Nat.digitChar digit ≠ '\n' := by decide
    intro member
    obtain ⟨digit, small, same⟩ := exists_digit_of_mem_hexDigits member
    exact other digit small same
  have escaped (c : Char) : '\n' ∉ escapeChar '"' c := by
    unfold escapeChar
    split_ifs with special line
    · obtain rfl | rfl : c = '"' ∨ c = '\\' := by simpa using special
      · decide
      · decide
    · decide
    · decide
    · decide
    · decide
    · rw [codePoint]
      simp [digits]
    · rw [List.mem_singleton]
      exact fun same => line same.symm
  rw [quote, String.toList_ofList, quoteChars]
  simp [escaped]

end WireSchema.Quoted
