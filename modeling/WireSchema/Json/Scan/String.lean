import WireSchema.Json.Draft

/-! Strings of a JSON text, from after the opening quote. Escapes of UTF-16 units have to pair
up for reading, while skipping takes each of them alone. -/

namespace WireSchema.Json.Scan

def hexValue? (c : Char) : Option Nat :=
  if '0' ≤ c ∧ c ≤ '9' then some (c.toNat - 48)
  else if 'a' ≤ c ∧ c ≤ 'f' then some (c.toNat - 87)
  else if 'A' ≤ c ∧ c ≤ 'F' then some (c.toNat - 55)
  else none

def hexUnit? (a b c d : Char) : Option Nat := do
  return 4096 * (← hexValue? a) + 256 * (← hexValue? b) + 16 * (← hexValue? c) + (← hexValue? d)

def isHighSurrogate (unit : Nat) : Bool := 0xD800 ≤ unit && unit ≤ 0xDBFF

def isLowSurrogate (unit : Nat) : Bool := 0xDC00 ≤ unit && unit ≤ 0xDFFF

def pairChar (high low : Nat) : Char :=
  Char.ofNat (0x10000 + 0x400 * (high - 0xD800) + (low - 0xDC00))

def shortEscape? : Char → Option Char
  | '"' => some '"'
  | '\\' => some '\\'
  | '/' => some '/'
  | 'b' => some '\x08'
  | 'f' => some '\x0c'
  | 'n' => some '\n'
  | 'r' => some '\r'
  | 't' => some '\t'
  | _ => none

inductive StringScan where
  | closed (value : Except SyntaxError (List Char)) (rest : List Char)
  | broken (fault : Fault)

def StringScan.push (c : Char) : StringScan → StringScan
  | .closed value rest => .closed (value.map (c :: ·)) rest
  | .broken f => .broken f

/-- Reading ends with an error before a scanned string, and skipping goes on. -/
def StringScan.fail (error : SyntaxError) : StringScan → StringScan
  | .closed _ rest => .closed (.error error) rest
  | .broken f => .broken { f with reading := error }

/-- The fault of an escape with fewer than four characters after it; four bytes are enough to
tell that they are no digits. -/
def shortUnit (text : List Char) : SyntaxError :=
  if 4 ≤ (String.ofList text).utf8ByteSize then .invalidEscape else .endOfString

/-- What reading makes of a high surrogate before `text`: the second half of its pair if one
follows, and an error otherwise. A fault in the escape itself is found when `text` is scanned. -/
def secondHalf (text : List Char) : Except SyntaxError (Option Nat) :=
  match text with
  | '\\' :: 'u' :: a :: b :: c :: d :: _ =>
    match hexUnit? a b c d with
    | some unit => if isLowSurrogate unit then .ok (some unit) else .error .loneSurrogate
    | none => .ok none
  | '\\' :: 'u' :: _ => .ok none
  | ['\\'] => .ok none
  | [] => .ok none
  | _ => .error .incompleteSurrogatePair

def scanString : List Char → StringScan
  | [] => .broken (.both .endOfString)
  | '"' :: rest => .closed (.ok []) rest
  | '\\' :: 'u' :: a :: b :: c :: d :: rest =>
    match hexUnit? a b c d with
    | none => .broken (.both .invalidEscape)
    | some unit =>
      if isLowSurrogate unit then (scanString rest).fail .loneSurrogate
      else if isHighSurrogate unit then
        match secondHalf rest with
        | .error error => (scanString rest).fail error
        | .ok none => scanString rest
        | .ok (some low) =>
          match rest with
          | _ :: _ :: _ :: _ :: _ :: _ :: rest => (scanString rest).push (pairChar unit low)
          | _ => .broken (.both .invalidEscape)
      else (scanString rest).push (Char.ofNat unit)
  | '\\' :: 'u' :: rest => .broken (.both (shortUnit rest))
  | '\\' :: c :: rest =>
    match shortEscape? c with
    | some escaped => (scanString rest).push escaped
    | none => .broken (.both .invalidEscape)
  | ['\\'] => .broken (.both .endOfString)
  | c :: rest =>
    if c.toNat < 0x20 then .broken (.both .controlCharacter) else (scanString rest).push c
termination_by structural text => text

end WireSchema.Json.Scan
