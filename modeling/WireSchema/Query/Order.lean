import WireSchema.Floating.Arithmetic
import WireSchema.Json.Basic

/-! The order of JSON values: null, booleans, numbers, strings, arrays, objects. Numbers are
compared by what they stand for, and objects by their sorted keys before their values. -/

namespace WireSchema.Json

mutual

def sortMembers : Json → Json
  | .null => .null
  | .bool b => .bool b
  | .number n => .number n
  | .string s => .string s
  | .array items => .array (sortMembersItems items)
  | .object members =>
    .object ((sortMembersValues members).mergeSort fun a b => decide (a.1 ≤ b.1))
termination_by structural json => json

def sortMembersItems : List Json → List Json
  | [] => []
  | item :: rest => sortMembers item :: sortMembersItems rest
termination_by structural items => items

def sortMembersValues : List (String × Json) → List (String × Json)
  | [] => []
  | (key, value) :: rest => (key, sortMembers value) :: sortMembersValues rest
termination_by structural members => members

end

def kindRank : Json → Nat
  | .null => 0
  | .bool _ => 1
  | .number _ => 2
  | .string _ => 3
  | .array _ => 4
  | .object _ => 5

def toDouble : Number → Binary64
  | .int i => Binary64.ofInt i
  | .float x => x

def isSmall (i : Int) : Bool :=
  minSigned ≤ i && i ≤ maxSigned

def compareNumbers (x y : Number) : Ordering :=
  match x, y with
  | .int i, .int j =>
    if isSmall i && isSmall j then compare i j
    else compare (toDouble x).rank (toDouble y).rank
  | x, y => compare (toDouble x).rank (toDouble y).rank

def compareKeys : List String → List String → Ordering
  | [], [] => .eq
  | [], _ :: _ => .lt
  | _ :: _, [] => .gt
  | a :: as, b :: bs => (compare a b).then (compareKeys as bs)

/- Comparison of values whose members are sorted. -/
mutual

def compareSorted : Json → Json → Ordering
  | .bool a, .bool b => compare a b
  | .number x, .number y => compareNumbers x y
  | .string s, .string t => compare s t
  | .array items, .array items' => compareItems items items'
  | .object members, .object members' =>
    (compareKeys (Record.keys members) (Record.keys members')).then
      (compareMembers members members')
  | a, b => compare a.kindRank b.kindRank
termination_by structural json => json

def compareItems : List Json → List Json → Ordering
  | [], [] => .eq
  | [], _ :: _ => .lt
  | _ :: _, [] => .gt
  | a :: as, b :: bs => (compareSorted a b).then (compareItems as bs)
termination_by structural items => items

def compareMembers : List (String × Json) → List (String × Json) → Ordering
  | [], [] => .eq
  | [], _ :: _ => .lt
  | _ :: _, [] => .gt
  | (_, a) :: as, (_, b) :: bs => (compareSorted a b).then (compareMembers as bs)
termination_by structural members => members

end

def order (a b : Json) : Ordering :=
  compareSorted a.sortMembers b.sortMembers

end WireSchema.Json
