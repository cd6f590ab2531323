import WireSchema.Json.Draft
import WireSchema.Text.Numeral
import WireSchema.Floating.Text

/-! Numbers of a JSON text. Digits are gathered into a significand of 64 bits; once that is
full, further digits of the whole part count as powers of ten and those of the fraction are
dropped. -/

namespace WireSchema.Json.Scan

structure Numeral where
  negative : Bool
  whole : List Char
  fraction : Option (List Char)
  exponent : Option (Bool × List Char)
  deriving DecidableEq, Repr

/-- Appends digits to a significand while it stays below `2 ^ 64`, and counts them. -/
def gather : Nat → List Char → Nat × Nat
  | significand, [] => (significand, 0)
  | significand, digit :: rest =>
    let next := 10 * significand + WireSchema.Numeral.digitValue digit
    if 2 ^ (64 : Nat) ≤ next then (significand, 0)
    else
      let gathered := gather next rest
      (gathered.1, gathered.2 + 1)

def Numeral.power (n : Numeral) : Int :=
  match n.exponent with
  | none => 0
  | some (false, digits) => WireSchema.Numeral.digitsValue digits
  | some (true, digits) => -WireSchema.Numeral.digitsValue digits

def Numeral.float (n : Numeral) : Except SyntaxError Number :=
  let whole := gather 0 n.whole
  let all := gather whole.1 (n.fraction.getD [])
  let exponent : Int := (n.whole.length - whole.2 : Nat) - all.2 + n.power
  match Floating.ofDecimal? n.negative all.1 exponent with
  | some x => .ok (.float x)
  | none => .error .numberOutOfRange

/-- A numeral of digits alone is an integer if 64 bits hold it; zero with a sign is not. -/
def Numeral.value (n : Numeral) : Except SyntaxError Number :=
  let natural := WireSchema.Numeral.digitsValue n.whole
  if n.fraction.isNone ∧ n.exponent.isNone ∧ ¬n.negative ∧ natural < 2 ^ (64 : Nat) then
    .ok (.int natural)
  else if n.fraction.isNone ∧ n.exponent.isNone ∧ n.negative ∧ 0 < natural ∧
      natural ≤ 2 ^ (63 : Nat) then
    .ok (.int (-natural))
  else n.float

inductive NumberScan where
  | closed (numeral : Numeral) (rest : List Char)
  | broken (fault : Fault)

/-- A digit is missing before `text`: reading minds whether the text has ended. -/
def missingDigit (text : List Char) : NumberScan :=
  .broken ⟨if text.isEmpty then .endOfValue else .invalidNumber, .invalidNumber⟩

def scanExponentDigits (n : Numeral) (negative : Bool) (text : List Char) : NumberScan :=
  match text.takeWhile Char.isDigit with
  | [] => missingDigit text
  | digits => .closed { n with exponent := some (negative, digits) } (text.dropWhile Char.isDigit)

def scanExponent (n : Numeral) : List Char → NumberScan
  | '+' :: rest => scanExponentDigits n false rest
  | '-' :: rest => scanExponentDigits n true rest
  | text => scanExponentDigits n false text

def scanAfterFraction (n : Numeral) : List Char → NumberScan
  | 'e' :: rest | 'E' :: rest => scanExponent n rest
  | text => .closed n text

def scanAfterWhole (n : Numeral) : List Char → NumberScan
  | '.' :: rest =>
    match rest.takeWhile Char.isDigit with
    | [] => missingDigit rest
    | digits => scanAfterFraction { n with fraction := some digits } (rest.dropWhile Char.isDigit)
  | text => scanAfterFraction n text

/-- Scans a numeral after its sign. A leading zero stands alone. -/
def scanNumber (negative : Bool) (text : List Char) : NumberScan :=
  match text.takeWhile Char.isDigit with
  | [] => missingDigit text
  | '0' :: _ :: _ => .broken (.both .invalidNumber)
  | digits => scanAfterWhole ⟨negative, digits, none, none⟩ (text.dropWhile Char.isDigit)

end WireSchema.Json.Scan
