import WireSchema.Floating.Decimal

/-! Text of double-precision numbers, and numbers of decimal text. A style says how the
shortest digits are laid out; reading scales a significand by one power of ten. -/

namespace WireSchema.Floating

/-- How decimal digits are laid out. `plain` holds the exponents that need no exponent mark,
all of them if absent. -/
structure Style where
  tie : Tie
  plain : Option (Int × Int)
  wholeFraction : Bool
  deriving DecidableEq, Repr

/-- Plain from `0.00001` to below `1e16`, and always told apart from an integer. -/
def jsonStyle : Style := ⟨.toEven, some (-5, 16), true⟩

def plainStyle : Style := ⟨.up, none, false⟩

def decimalDigits (n : Nat) : List Char :=
  Nat.toDigits 10 n

def zeros (count : Nat) : List Char :=
  List.replicate count '0'

def plainLayout (wholeFraction : Bool) (d : Decimal) : List Char :=
  let digits := decimalDigits d.digits
  if 0 ≤ d.exponent then
    digits ++ zeros d.exponent.toNat ++ (if wholeFraction then ['.', '0'] else [])
  else
    let places := (-d.exponent).toNat
    if places < digits.length then
      digits.take (digits.length - places) ++ '.' :: digits.drop (digits.length - places)
    else
      '0' :: '.' :: zeros (places - digits.length) ++ digits

def exponentLayout (d : Decimal) : List Char :=
  let digits := decimalDigits d.digits
  let exponent := d.exponent + digits.length - 1
  let mark := if exponent < 0 then ['e', '-'] else ['e', '+']
  let significand := match digits with
    | [] => []
    | [only] => [only]
    | first :: rest => first :: '.' :: rest
  significand ++ mark ++ decimalDigits exponent.natAbs

def Style.layout (style : Style) (d : Decimal) : List Char :=
  let exponent := d.exponent + (decimalDigits d.digits).length - 1
  match style.plain with
  | some (first, limit) =>
    if first ≤ exponent ∧ exponent < limit then plainLayout style.wholeFraction d
    else exponentLayout d
  | none => plainLayout style.wholeFraction d

def Style.finite (style : Style) (significand : Nat) (scale : Int) : List Char :=
  if significand = 0 then plainLayout style.wholeFraction ⟨0, 0⟩
  else style.layout (shortest style.tie significand scale)

def Style.chars (style : Style) (x : Binary64) : List Char :=
  match x.datum with
  | .nan _ _ => ['N', 'a', 'N']
  | .infinite negative => (if negative then ['-'] else []) ++ ['i', 'n', 'f']
  | .finite negative significand scale =>
    (if negative then ['-'] else []) ++ style.finite significand scale

def Style.text (style : Style) (x : Binary64) : String :=
  String.ofList (style.chars x)

def powerOfTen (exponent : Nat) : Nat :=
  double.nearest (10 ^ exponent) 1

/-- Scales a magnitude by powers of ten of at most 308, rounding after each one. A magnitude
below `2 ^ 64` is zero after two steps down, so four steps are never used up. -/
def scaleByTen : Nat → Nat → Int → Option Nat
  | 0, magnitude, _ => some magnitude
  | steps + 1, magnitude, exponent =>
    if exponent.natAbs ≤ 308 then
      if 0 ≤ exponent then
        let product := double.mul magnitude (powerOfTen exponent.natAbs)
        if product = double.infinity then none else some product
      else some (double.div magnitude (powerOfTen exponent.natAbs))
    else if magnitude = 0 then some 0
    else if 0 ≤ exponent then none
    else scaleByTen steps (double.div magnitude (powerOfTen 308)) (exponent + 308)

/-- The number read for `significand * 10 ^ exponent`: the significand is rounded first, then
the scaled number. None if it is out of range. -/
def ofDecimal? (negative : Bool) (significand : Nat) (exponent : Int) : Option Binary64 :=
  (scaleByTen 4 (double.nearest significand 1) exponent).map fun magnitude =>
    ⟨UInt64.ofNat (double.withSign negative magnitude)⟩

end WireSchema.Floating
