import WireSchema.Bytes.Word

/-! Binary floating-point numbers as bit patterns. A pattern decodes to an exact datum, and
every operation is exact arithmetic on data followed by one rounding, ties to even. -/

namespace WireSchema.Floating

structure Format where
  fraction : Nat
  exponent : Nat
  deriving DecidableEq, Repr

def single : Format := ⟨23, 8⟩

def double : Format := ⟨52, 11⟩

/-- What a bit pattern stands for; a finite datum is `significand * 2 ^ scale`. -/
inductive Datum where
  | nan (negative : Bool) (payload : Nat)
  | infinite (negative : Bool)
  | finite (negative : Bool) (significand : Nat) (scale : Int)
  deriving DecidableEq, Repr

/-- Quotient rounded to the nearest natural number, ties to even. -/
def roundEven (num den : Nat) : Nat :=
  let floor := num / den
  let twice := 2 * (num % den)
  if twice < den ∨ (twice = den ∧ floor % 2 = 0) then floor else floor + 1

/-- Greatest `e` with `2 ^ e * den ≤ num`. -/
def ratioLog (num den : Nat) : Int :=
  let guess : Int := num.log2 - den.log2
  if den * 2 ^ guess.toNat ≤ num * 2 ^ (-guess).toNat then guess else guess - 1

namespace Format

def maxExponent (f : Format) : Nat := 2 ^ f.exponent - 1

def infinity (f : Format) : Nat := f.maxExponent * 2 ^ f.fraction

def signBit (f : Format) : Nat := 2 ^ (f.fraction + f.exponent)

def minScale (f : Format) : Int := 2 - (2 ^ (f.exponent - 1) : Nat) - f.fraction

def withSign (f : Format) (negative : Bool) (magnitude : Nat) : Nat :=
  if negative then f.signBit + magnitude else magnitude

def decode (f : Format) (bits : Nat) : Datum :=
  let negative := bits / f.signBit % 2 == 1
  let exponent := bits / 2 ^ f.fraction % 2 ^ f.exponent
  let fraction := bits % 2 ^ f.fraction
  if exponent = f.maxExponent then
    if fraction = 0 then .infinite negative else .nan negative fraction
  else if exponent = 0 then .finite negative fraction f.minScale
  else .finite negative (2 ^ f.fraction + fraction) (f.minScale + exponent - 1)

/-- The magnitude of the number nearest to a ratio. The implicit bit of a normal significand
carries into the exponent field, so that one sum covers normal and subnormal numbers. -/
def nearest (f : Format) (num den : Nat) : Nat :=
  if num = 0 then 0
  else
    let scale := max (ratioLog num den - f.fraction) f.minScale
    let significand := roundEven (num * 2 ^ (-scale).toNat) (den * 2 ^ scale.toNat)
    min ((scale - f.minScale).toNat * 2 ^ f.fraction + significand) f.infinity

def nearestScaled (f : Format) (num den : Nat) (scale : Int) : Nat :=
  f.nearest (num * 2 ^ scale.toNat) (den * 2 ^ (-scale).toNat)

def encode (f : Format) : Datum → Nat
  | .nan negative payload => f.withSign negative (f.infinity + payload)
  | .infinite negative => f.withSign negative f.infinity
  | .finite negative significand scale =>
    f.withSign negative (f.nearestScaled significand 1 scale)

def mul (f : Format) (x y : Nat) : Nat :=
  match f.decode x, f.decode y with
  | .finite _ m p, .finite _ n q => f.nearestScaled (m * n) 1 (p + q)
  | _, _ => f.infinity

def div (f : Format) (x y : Nat) : Nat :=
  match f.decode x, f.decode y with
  | .finite _ m p, .finite _ n q => f.nearestScaled m n (p - q)
  | _, _ => f.infinity

end Format

end WireSchema.Floating

namespace WireSchema

open Floating

/-- A double-precision number, kept as its bits: data of equal bits are the same value. -/
structure Binary64 where
  bits : UInt64
  deriving DecidableEq, Repr

namespace Binary64

def datum (x : Binary64) : Datum :=
  double.decode x.bits.toNat

def ofDatum (d : Datum) : Binary64 :=
  ⟨UInt64.ofNat (double.encode d)⟩

def ofInt (i : Int) : Binary64 :=
  ofDatum (.finite (i < 0) i.natAbs 0)

def isNaN (x : Binary64) : Bool :=
  match x.datum with
  | .nan _ _ => true
  | _ => false

def isFinite (x : Binary64) : Bool :=
  match x.datum with
  | .finite _ _ _ => true
  | _ => false

def isZero (x : Binary64) : Bool :=
  match x.datum with
  | .finite _ significand _ => significand == 0
  | _ => false

/-- Equality of numbers, in which all NaNs are one value and both zeros are another. -/
def same (x y : Binary64) : Bool :=
  (x.isNaN && y.isNaN) || (x.isZero && y.isZero) || x == y

/-- Bits of the nearest single-precision number. A NaN turns quiet and keeps the leading bits
of its payload. -/
def narrow (x : Binary64) : UInt32 :=
  UInt32.ofNat <| single.encode <| match x.datum with
    | .nan negative payload => .nan negative (payload / 2 ^ (29 : Nat) ||| 2 ^ (22 : Nat))
    | datum => datum

def widen (bits : UInt32) : Binary64 :=
  ofDatum <| match single.decode bits.toNat with
    | .nan negative payload => .nan negative (payload * 2 ^ (29 : Nat) ||| 2 ^ (51 : Nat))
    | datum => datum

def toSingle (x : Binary64) : Binary64 :=
  widen x.narrow

end Binary64

end WireSchema
