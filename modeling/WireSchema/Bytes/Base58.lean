import WireSchema.Text.Quoted

/-! Base58 text of bytes: the big-endian number in 58 digits, after one `1` for each leading
zero byte. -/

namespace WireSchema.Base58

/-- Why a text is not base58; positions count bytes. -/
inductive Fault where
  | invalidCharacter (character : Char) (position : Nat)
  | nonAscii (position : Nat)
  deriving DecidableEq, Repr

def Fault.message : Fault → String
  | .invalidCharacter character position =>
    s!"provided string contained invalid character {Quoted.quoteChar character} at byte {position}"
  | .nonAscii position =>
    s!"provided string contained non-ascii character starting at byte {position}"

def alphabet : List Char :=
  "123456789ABCDEFGHJKLMNPQRSTUVWXYZabcdefghijkmnopqrstuvwxyz".toList

def digitsWithin (base : Nat) : Nat → Nat → List Nat → List Nat
  | 0, _, digits => digits
  | fuel + 1, n, digits =>
    if n = 0 then digits else digitsWithin base fuel (n / base) (n % base :: digits)

/-- Digits of `n` in a base of at least two, the most significant first, none for zero. -/
def digits (base n : Nat) : List Nat :=
  digitsWithin base (n.log2 + 1) n []

def value (base : Nat) (digits : List Nat) : Nat :=
  digits.foldl (fun n d => base * n + d) 0

def encodeChars (bytes : List UInt8) : List Char :=
  let zeros := bytes.takeWhile (· = 0)
  let rest := bytes.dropWhile (· = 0)
  List.replicate zeros.length '1' ++
    (digits 58 (value 256 (rest.map UInt8.toNat))).map fun d => alphabet.getD d '1'

def encode (bytes : List UInt8) : String :=
  String.ofList (encodeChars bytes)

def readDigits (position : Nat) : List Char → Except Fault (List Nat)
  | [] => .ok []
  | c :: rest =>
    if c.toNat ≥ 128 then .error (.nonAscii position)
    else match alphabet.idxOf? c with
      | none => .error (.invalidCharacter c position)
      | some d => do return d :: (← readDigits (position + 1) rest)

def bytesOfDigits (read : List Nat) : List UInt8 :=
  let zeros := read.takeWhile (· = 0)
  let rest := read.dropWhile (· = 0)
  List.replicate zeros.length 0 ++ (digits 256 (value 58 rest)).map UInt8.ofNat

def decode (text : String) : Except Fault (List UInt8) := do
  return bytesOfDigits (← readDigits 0 text.toList)

end WireSchema.Base58
