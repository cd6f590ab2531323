import WireSchema.Text.Quoted

/-! Hexadecimal text of bytes: two digits a byte, written in lower case and read in either. -/

namespace WireSchema.Hex

/-- Why a text is not hexadecimal; positions count bytes. -/
inductive Fault where
  | oddLength
  | invalidDigit (byte : UInt8) (position : Nat)
  deriving DecidableEq, Repr

def Fault.message : Fault → String
  | .oddLength => "Odd number of digits"
  | .invalidDigit byte position =>
    s!"Invalid character {Quoted.quoteChar (Char.ofNat byte.toNat)} at position {position}"

def digit (n : Nat) : Char :=
  Char.ofNat (if n < 10 then 48 + n else 87 + n)

def encodeChars : List UInt8 → List Char
  | [] => []
  | byte :: rest => digit (byte.toNat / 16) :: digit (byte.toNat % 16) :: encodeChars rest

def encode (bytes : List UInt8) : String :=
  String.ofList (encodeChars bytes)

def digitValue? (byte : UInt8) : Option Nat :=
  let n := byte.toNat
  if 48 ≤ n ∧ n ≤ 57 then some (n - 48)
  else if 97 ≤ n ∧ n ≤ 102 then some (n - 87)
  else if 65 ≤ n ∧ n ≤ 70 then some (n - 55)
  else none

def readDigit (byte : UInt8) (position : Nat) : Except Fault Nat :=
  match digitValue? byte with
  | some value => .ok value
  | none => .error (.invalidDigit byte position)

def decodePairs (position : Nat) : List UInt8 → Except Fault (List UInt8)
  | high :: low :: rest => do
    let h ← readDigit high position
    let l ← readDigit low (position + 1)
    return UInt8.ofNat (16 * h + l) :: (← decodePairs (position + 2) rest)
  | _ => .ok []

def decode (text : String) : Except Fault (List UInt8) :=
  let digits := text.toUTF8.toList
  if digits.length % 2 = 0 then decodePairs 0 digits else .error .oddLength

end WireSchema.Hex
