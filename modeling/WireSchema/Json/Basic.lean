import WireSchema.Record
import WireSchema.Floating.Format

/-! JSON values. Numbers are integers of 64 bits, signed or not, or finite floating-point
numbers; which one a text spells is part of the value. -/

namespace WireSchema

inductive Number where
  | int (value : Int)
  | float (value : Binary64)
  deriving DecidableEq, Repr

inductive Json where
  | null
  | bool (value : Bool)
  | number (value : Number)
  | string (value : String)
  | array (items : List Json)
  | object (members : List (String × Json))
  deriving Repr

namespace Json

def maxSigned : Int := (2 ^ (63 : Nat) : Nat) - 1

def minSigned : Int := -(2 ^ (63 : Nat) : Nat)

def int (i : Int) : Json := .number (.int i)

def nat (n : Nat) : Json := .number (.int n)

/-- A number if finite; JSON has no other spelling than `null` for the rest. -/
def ofFloat (x : Binary64) : Json :=
  if x.isFinite then .number (.float x) else .null

def kindName : Json → String
  | .null => "null"
  | .bool _ => "bool"
  | .number _ => "number"
  | .string _ => "string"
  | .array _ => "array"
  | .object _ => "object"

def bool? : Json → Option Bool
  | .bool b => some b
  | _ => none

def natural? : Json → Option Nat
  | .number (.int i) => if 0 ≤ i then some i.toNat else none
  | _ => none

theorem natural?_nat (n : Nat) : (nat n).natural? = some n := by
  simp [nat, natural?]

def integer? : Json → Option Int
  | .number (.int i) => if i ≤ maxSigned then some i else none
  | _ => none

def float? : Json → Option Binary64
  | .number (.int i) => some (Binary64.ofInt i)
  | .number (.float x) => some x
  | _ => none

def string? : Json → Option String
  | .string s => some s
  | _ => none

def array? : Json → Option (List Json)
  | .array items => some items
  | _ => none

/- Objects may repeat a key while a text is read. Merging leaves each key once. -/
mutual

def merge : Json → Json
  | .null => .null
  | .bool b => .bool b
  | .number n => .number n
  | .string s => .string s
  | .array items => .array (mergeItems items)
  | .object members => .object (Record.ofList (mergeMembers members))
termination_by structural json => json

def mergeItems : List Json → List Json
  | [] => []
  | item :: rest => merge item :: mergeItems rest
termination_by structural items => items

def mergeMembers : List (String × Json) → List (String × Json)
  | [] => []
  | (key, value) :: rest => (key, merge value) :: mergeMembers rest
termination_by structural members => members

end

end Json

end WireSchema
