import WireSchema.Floating.Format
import WireSchema.PublicKey
import WireSchema.Record

/-! Values of schema types. Integers are unbounded here; the type of a field decides which of
them it holds. -/

namespace WireSchema

inductive Payload (α : Type) where
  | empty
  | named (fields : List (String × α))
  | tuple (items : List α)
  deriving Repr

namespace Payload

def kindName : Payload α → String
  | empty => "empty payload"
  | named _ => "named payload"
  | tuple _ => "tuple payload"

end Payload

inductive Value where
  | bool (value : Bool)
  | unsigned (value : Nat)
  | signed (value : Int)
  | float (value : Binary64)
  | string (value : String)
  | bytes (value : List UInt8)
  | publicKey (value : PublicKey)
  /-- Values of both `vec` and `array` types. -/
  | list (items : List Value)
  | option (item : Option Value)
  | map (entries : List (Value × Value))
  | struct (typeName : String) (fields : List (String × Value))
  | enum (typeName kind : String) (tag : UInt8) (payload : Payload Value)
  deriving Repr

namespace Value

def kindName : Value → String
  | bool _ => "bool"
  | unsigned _ => "unsigned integer"
  | signed _ => "signed integer"
  | float _ => "float"
  | string _ => "string"
  | bytes _ => "bytes"
  | publicKey _ => "public key"
  | list _ => "list"
  | option _ => "option"
  | map _ => "map"
  | struct _ _ => "struct"
  | enum _ _ _ _ => "enum"

/- Equality of values, in which the order of fields does not matter. -/
mutual

def sameBy (floats : Binary64 → Binary64 → Bool) : Value → Value → Bool
  | bool a, bool b => a == b
  | unsigned a, unsigned b => a == b
  | signed a, signed b => a == b
  | float a, float b => floats a b
  | string a, string b => a == b
  | bytes a, bytes b => a == b
  | publicKey a, publicKey b => a == b
  | list a, list b => sameItems floats a b
  | option none, option none => true
  | option (some a), option (some b) => sameBy floats a b
  | map a, map b => sameEntries floats a b
  | struct n a, struct m b => n == m && a.length == b.length && sameFields floats a b
  | enum n k t .empty, enum m l u .empty => n == m && k == l && t == u
  | enum n k t (.named a), enum m l u (.named b) =>
    n == m && k == l && t == u && a.length == b.length && sameFields floats a b
  | enum n k t (.tuple a), enum m l u (.tuple b) =>
    n == m && k == l && t == u && sameItems floats a b
  | _, _ => false
termination_by structural value => value

def sameItems (floats : Binary64 → Binary64 → Bool) : List Value → List Value → Bool
  | [], [] => true
  | a :: as, b :: bs => sameBy floats a b && sameItems floats as bs
  | _, _ => false
termination_by structural items => items

def sameEntries (floats : Binary64 → Binary64 → Bool) :
    List (Value × Value) → List (Value × Value) → Bool
  | [], [] => true
  | (k, a) :: as, (l, b) :: bs =>
    sameBy floats k l && sameBy floats a b && sameEntries floats as bs
  | _, _ => false
termination_by structural entries => entries

def sameFields (floats : Binary64 → Binary64 → Bool) :
    List (String × Value) → Record Value → Bool
  | [], _ => true
  | (key, a) :: rest, others =>
    match Record.get? others key with
    | some b => sameBy floats a b && sameFields floats rest others
    | none => false
termination_by structural fields => fields

end

/-- Floats are the same numbers. -/
def same : Value → Value → Bool :=
  sameBy Binary64.same

/-- Floats have the same bits. -/
def identical : Value → Value → Bool :=
  sameBy (· == ·)

end Value

end WireSchema
