/-! Decimal integer text: an optional sign, then ASCII digits alone. Leading zeros are read,
and nothing is written that is not needed. -/

namespace WireSchema.Numeral

def digitValue (c : Char) : Nat :=
  c.toNat - '0'.toNat

def digitsValue (digits : List Char) : Nat :=
  digits.foldl (fun n c => 10 * n + digitValue c) 0

def digits? (text : List Char) : Option Nat :=
  if text ≠ [] ∧ text.all Char.isDigit then some (digitsValue text) else none

/-- Reads a natural number with an optional plus sign. -/
def natural? (text : String) : Option Nat :=
  match text.toList with
  | '+' :: digits => digits? digits
  | digits => digits? digits

def integer? (text : String) : Option Int :=
  match text.toList with
  | '+' :: digits => (digits? digits).map Int.ofNat
  | '-' :: digits => (digits? digits).map fun n => -Int.ofNat n
  | digits => (digits? digits).map Int.ofNat

end WireSchema.Numeral
