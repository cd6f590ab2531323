import WireSchema.Query.Filter
import WireSchema.Query.Order

/-! Operations on JSON values. An operation that has no use for its operands has no result. -/

namespace WireSchema.Json

/-! ## Places -/

/-- A position counted from the end if it is negative, as long as it does not pass the start. -/
def fromStart? (i : Int) (length : Nat) : Option Nat :=
  let position := if i < 0 then i + length else i
  if 0 ≤ position then some position.toNat else none

def position? (i : Int) (length : Nat) : Option Nat :=
  (fromStart? i length).filter (· < length)

def bound (i : Int) (length : Nat) : Nat :=
  min ((fromStart? i length).getD 0) length

def small? : Json → Option Int
  | .number (.int i) => if isSmall i then some i else none
  | _ => none

def sliceRange? (start stop : Option Json) (length : Nat) : Option (Nat × Nat) := do
  let first ← match start with
    | none => some 0
    | some json => json.small?.map (bound · length)
  let last ← match stop with
    | none => some length
    | some json => json.small?.map (bound · length)
  return (first, last - first)

def slice? (json : Json) (start stop : Option Json) : Option Json :=
  match json with
  | .null => some .null
  | .array items => do
    let (first, count) ← sliceRange? start stop items.length
    return .array ((items.drop first).take count)
  | .string s => do
    let (first, count) ← sliceRange? start stop s.length
    return .string (String.ofList ((s.toList.drop first).take count))
  | _ => none

def index? (json key : Json) : Option Json :=
  match json, key with
  | .null, _ => some .null
  | .object members, .string name => some ((Record.get? members name).getD .null)
  | .array items, key => do
    let i ← key.small?
    return ((position? i items.length).bind fun position => items[position]?).getD .null
  | _, _ => none

def elements? : Json → Option (List Json)
  | .array items => some items
  | .object members => some (members.map Prod.snd)
  | _ => none

/-! ## Arithmetic -/

/-- An integer if 64 bits hold it, and else the nearest floating-point number. -/
def fitted (i : Int) : Json :=
  if isSmall i then .number (.int i) else .number (.float (Binary64.ofInt i))

def calculate (ints : Int → Int → Int) (floats : Binary64 → Binary64 → Binary64)
    (x y : Number) : Json :=
  match x, y with
  | .int i, .int j =>
    if isSmall i && isSmall j then fitted (ints i j)
    else .number (.float (floats (toDouble x) (toDouble y)))
  | x, y => .number (.float (floats (toDouble x) (toDouble y)))

def insertAll (members others : Record Json) : Record Json :=
  others.foldl (fun record entry => Record.insert record entry.1 entry.2) members

def add? : Json → Json → Option Json
  | .null, json | json, .null => some json
  | .number x, .number y => some (calculate (· + ·) Binary64.add x y)
  | .string s, .string t => some (.string (s ++ t))
  | .array items, .array others => some (.array (items ++ others))
  | .object members, .object others => some (.object (insertAll members others))
  | _, _ => none

/-- A text repeated some times, or null if that is not once at least. -/
def repeated (s : String) (times : Int) : Json :=
  if 0 < times then .string (String.join (List.replicate times.toNat s)) else .null

mutual

def merged : Json → Json → Json
  | .object others, .object members => .object (mergedMembers others members)
  | json, _ => json
termination_by structural json => json

def mergedMembers : List (String × Json) → Record Json → Record Json
  | [], members => members
  | (key, value) :: rest, members =>
    match Record.get? members key with
    | some old => mergedMembers rest (Record.insert members key (merged value old))
    | none => mergedMembers rest (Record.insert members key value)
termination_by structural others => others

end

def multiply? : Json → Json → Option Json
  | .number x, .number y => some (calculate (· * ·) Binary64.mul x y)
  | .string s, json | json, .string s => json.small?.map (repeated s)
  | .object members, .object others => some (merged (.object others) (.object members))
  | _, _ => none

def negate? : Json → Option Json
  | .number (.int i) =>
    some (if isSmall i then fitted (-i) else .number (.float (Binary64.ofInt i).neg))
  | .number (.float x) => some (.number (.float x.neg))
  | _ => none

/-! ## Properties -/

def length? : Json → Option Json
  | .null => some (.nat 0)
  | .bool _ => none
  | .number (.int i) => some (fitted i.natAbs)
  | .number (.float x) => some (.number (.float x.abs))
  | .string s => some (.nat s.length)
  | .array items => some (.nat items.length)
  | .object members => some (.nat members.length)

def keys? : Json → Option Json
  | .array items => some (.array ((List.range items.length).map .nat))
  | .object members =>
    some (.array (((Record.keys members).mergeSort fun a b => decide (a ≤ b)).map .string))
  | _ => none

def sorted (items : List Json) : List Json :=
  items.mergeSort fun a b => order a b ≠ .gt

end WireSchema.Json

namespace WireSchema.Query

open Json

def Unary.result? : Unary → Json → Option Json
  | negate, json => json.negate?
  | length, json => json.length?
  | sum, json => do (← json.elements?).foldlM add? .null
  | sort, json => do return .array (sorted (← json.array?))
  | reverse, json => do return .array (← json.array?).reverse
  | keys, json => json.keys?

def Binary.result? : Binary → Json → Json → Option Json
  | add, a, b => add? a b
  | multiply, a, b => multiply? a b
  | equal, a, b => some (.bool (order a b = .eq))
  | unequal, a, b => some (.bool (order a b ≠ .eq))

end WireSchema.Query
