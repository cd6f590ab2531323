import WireSchema.Floating.Format

/-! Sums, products and the order of double-precision numbers. -/

namespace WireSchema.Floating

def signed (negative : Bool) (significand : Nat) : Int :=
  if negative then -significand else significand

/-- A sum that is zero is negative only if both terms are. -/
def sumFinite (negative negative' : Bool) (m n : Nat) (p q : Int) : Datum :=
  let scale := min p q
  let total := signed negative (m * 2 ^ (p - scale).toNat) +
    signed negative' (n * 2 ^ (q - scale).toNat)
  .finite (if total = 0 then negative && negative' else total < 0) total.natAbs scale

def Datum.add : Datum → Datum → Datum
  | .finite negative m p, .finite negative' n q => sumFinite negative negative' m n p q
  | .infinite negative, .infinite negative' =>
    if negative = negative' then .infinite negative else .nan false (2 ^ (51 : Nat))
  | .infinite negative, .finite _ _ _ | .finite _ _ _, .infinite negative => .infinite negative
  | .nan negative payload, _ | _, .nan negative payload => .nan negative payload

def Datum.mul : Datum → Datum → Datum
  | .finite negative m p, .finite negative' n q => .finite (negative != negative') (m * n) (p + q)
  | .infinite negative, .infinite negative' => .infinite (negative != negative')
  | .infinite negative, .finite negative' m _ | .finite negative' m _, .infinite negative =>
    if m = 0 then .nan false (2 ^ (51 : Nat)) else .infinite (negative != negative')
  | .nan negative payload, _ | _, .nan negative payload => .nan negative payload

end WireSchema.Floating

namespace WireSchema.Binary64

def add (x y : Binary64) : Binary64 :=
  ofDatum (x.datum.add y.datum)

def mul (x y : Binary64) : Binary64 :=
  ofDatum (x.datum.mul y.datum)

def neg (x : Binary64) : Binary64 :=
  ⟨x.bits ^^^ 0x8000000000000000⟩

def abs (x : Binary64) : Binary64 :=
  ⟨x.bits &&& 0x7fffffffffffffff⟩

/-- Numbers are ordered as these integers are; both zeros have the same one. -/
def rank (x : Binary64) : Int :=
  Floating.signed (x.abs ≠ x) x.abs.bits.toNat

end WireSchema.Binary64
