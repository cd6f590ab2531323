import WireSchema.Floating.Format

/-! Decimal digits of a double-precision number: the fewest digits that read back as the
number, and of those the nearest ones. All arithmetic is exact. -/

namespace WireSchema.Floating

inductive Tie where
  | toEven
  | up
  deriving DecidableEq, Repr

/-- The positive decimal number `digits * 10 ^ exponent`. -/
structure Decimal where
  digits : Nat
  exponent : Int
  deriving DecidableEq, Repr

def decimalLengthWithin : Nat → Nat → Nat
  | 0, _ => 0
  | fuel + 1, n => if n = 0 then 0 else decimalLengthWithin fuel (n / 10) + 1

def decimalLength (n : Nat) : Nat :=
  decimalLengthWithin (n.log2 + 1) n

/-- Greatest `e` with `10 ^ e * den ≤ num`, for positive numbers. -/
def decimalLog (num den : Nat) : Int :=
  if den ≤ num then decimalLength (num / den) - 1 else -(decimalLength ((den - 1) / num) : Int)

/-- The numbers that round to one value, in common units: `low` and `high` bound them, and
belong to them if `closed`. -/
structure Interval where
  low : Nat
  value : Nat
  high : Nat
  closed : Bool
  deriving DecidableEq, Repr

namespace Interval

def contains (i : Interval) (x : Nat) : Bool :=
  if i.closed then i.low ≤ x && x ≤ i.high else i.low < x && x < i.high

/-- The multiple of `grid` in the interval that is nearest to its value, as a factor. Only
the two neighbours of the value need a test. -/
def onGrid? (tie : Tie) (i : Interval) (grid : Nat) : Option Nat :=
  let below := i.value / grid
  let twice := 2 * (i.value % grid)
  let nearer :=
    if twice < grid then below
    else if grid < twice then below + 1
    else match tie with
      | .toEven => if below % 2 = 0 then below else below + 1
      | .up => below + 1
  match i.contains (below * grid), i.contains ((below + 1) * grid) with
  | true, true => some nearer
  | true, false => some below
  | false, true => some (below + 1)
  | false, false => none

def scale (i : Interval) (factor : Nat) : Interval :=
  { i with low := i.low * factor, value := i.value * factor, high := i.high * factor }

end Interval

/-- The interval of a finite datum in quarter units of its scale. Below a power of two the
neighbours are half as far apart. -/
def roundingInterval (significand : Nat) (scale : Int) : Interval :=
  let narrowed := significand = 2 ^ double.fraction ∧ double.minScale < scale
  { low := 4 * significand - (if narrowed then 1 else 2)
    value := 4 * significand
    high := 4 * significand + 2
    closed := significand % 2 == 0 }

def stripZeros : Nat → Decimal → Decimal
  | 0, d => d
  | fuel + 1, d =>
    if d.digits % 10 = 0 then stripZeros fuel ⟨d.digits / 10, d.exponent + 1⟩ else d

def searchGrid (tie : Tie) (i : Interval) (scale : Int) (top : Int) : Nat → Decimal
  | 0 => ⟨i.value, scale⟩
  | attempts + 1 =>
    let exponent := top
    let units := (i.scale (2 ^ scale.toNat * 10 ^ (-exponent).toNat))
    match units.onGrid? tie (2 ^ (-scale).toNat * 10 ^ exponent.toNat) with
    | some digits => ⟨digits, exponent⟩
    | none => searchGrid tie i scale (top - 1) attempts

/-- The shortest decimal of a positive finite datum; seventeen digits always suffice. -/
def shortest (tie : Tie) (significand : Nat) (scale : Int) : Decimal :=
  let top := decimalLog (significand * 2 ^ scale.toNat) (2 ^ (-scale).toNat)
  stripZeros 17 (searchGrid tie (roundingInterval significand scale) (scale - 2) top 17)

end WireSchema.Floating
