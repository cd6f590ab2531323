import WireSchema.Json.Basic
import WireSchema.Json.Error

/-! Drafts: JSON documents as far as their text can be read, with a fault where reading stops.
A draft can be read, which accepts documents only, or skipped, which is more lenient: the
faults of both readings are kept side by side. -/

namespace WireSchema.Json

structure Fault where
  reading : SyntaxError
  skipping : SyntaxError
  deriving DecidableEq, Repr

def Fault.both (error : SyntaxError) : Fault :=
  ⟨error, error⟩

inductive Draft where
  | null
  | bool (value : Bool)
  | number (value : Except SyntaxError Number)
  | string (value : Except SyntaxError String)
  /-- Items up to the closing bracket, or to the place where reading stopped. -/
  | array (items : List Draft) (stop : Option Fault)
  | object (members : List (Except SyntaxError String × Draft)) (stop : Option Fault)
  /-- Stands for a value that could not be read. -/
  | missing (fault : Fault)
  /-- Stands for the value of a member whose colon could not be read. -/
  | noColon (error : SyntaxError)

namespace Draft

/-- How many more brackets may be opened, or none if there is no limit. -/
abbrev Room := Option Nat

/-- A text may have 127 brackets open at once. -/
def textRoom : Room := some 127

def enter (room : Room) (path : Path) : Except (LocatedError SyntaxError) Room :=
  match room with
  | none => .ok none
  | some 0 => .error ⟨path, .tooDeep⟩
  | some (left + 1) => .ok (some left)

def readKey (path : Path) : Except SyntaxError String → Except (LocatedError SyntaxError) String
  | .ok key => .ok key
  | .error cause => .error ⟨path ++ [.unknown], cause⟩

/- Reading takes a draft at its path, and reports the first fault in text order. -/
mutual

def read : Draft → Room → Path → Except (LocatedError SyntaxError) Json
  | .null, _, _ => .ok .null
  | .bool b, _, _ => .ok (.bool b)
  | .number (.ok n), _, _ => .ok (.number n)
  | .number (.error cause), _, path => .error ⟨path, cause⟩
  | .string (.ok s), _, _ => .ok (.string s)
  | .string (.error cause), _, path => .error ⟨path, cause⟩
  | .array items stop, room, path => do
    let items ← readItems items (← enter room path) path 0
    match stop with
    | none => return .array items
    | some fault => throw ⟨path, fault.reading⟩
  | .object members stop, room, path => do
    let members ← readMembers members (← enter room path) path
    match stop with
    | none => return .object members
    | some fault => throw ⟨path ++ [.unknown], fault.reading⟩
  | .missing f, _, path => .error ⟨path, f.reading⟩
  | .noColon cause, _, path => .error ⟨path.dropLast, cause⟩
termination_by structural draft => draft

def readItems : List Draft → Room → Path → Nat → Except (LocatedError SyntaxError) (List Json)
  | [], _, _, _ => .ok []
  | item :: rest, room, path, position => do
    let value ← read item room (path ++ [.index position])
    return value :: (← readItems rest room path (position + 1))
termination_by structural items => items

def readMembers : List (Except SyntaxError String × Draft) → Room → Path →
    Except (LocatedError SyntaxError) (List (String × Json))
  | [], _, _ => .ok []
  | (key, value) :: rest, room, path => do
    let key ← readKey path key
    let value ← read value room (path ++ [.key key])
    return (key, value) :: (← readMembers rest room path)
termination_by structural members => members

end

/- Skipping checks the structure alone, at any depth. -/
mutual

def skip : Draft → Except SyntaxError Unit
  | .null | .bool _ | .number _ | .string _ => .ok ()
  | .array items stop => do
    skipItems items
    if let some fault := stop then throw fault.skipping
  | .object members stop => do
    skipMembers members
    if let some fault := stop then throw fault.skipping
  | .missing f => .error f.skipping
  | .noColon cause => .error cause
termination_by structural draft => draft

def skipItems : List Draft → Except SyntaxError Unit
  | [] => .ok ()
  | item :: rest => do
    skip item
    skipItems rest
termination_by structural items => items

def skipMembers : List (Except SyntaxError String × Draft) → Except SyntaxError Unit
  | [] => .ok ()
  | (_, value) :: rest => do
    skip value
    skipMembers rest
termination_by structural members => members

end

/- The draft of a value, without a fault. -/
mutual

def ofJson : Json → Draft
  | .null => .null
  | .bool b => .bool b
  | .number n => .number (.ok n)
  | .string s => .string (.ok s)
  | .array items => .array (ofItems items) none
  | .object members => .object (ofMembers members) none
termination_by structural json => json

def ofItems : List Json → List Draft
  | [] => []
  | item :: rest => ofJson item :: ofItems rest
termination_by structural items => items

def ofMembers : List (String × Json) → List (Except SyntaxError String × Draft)
  | [] => []
  | (key, value) :: rest => (.ok key, ofJson value) :: ofMembers rest
termination_by structural members => members

end

end Draft

end WireSchema.Json
