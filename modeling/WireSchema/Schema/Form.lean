import WireSchema.Json.Draft
import WireSchema.Schema.Error
import WireSchema.Text.Quoted
import WireSchema.Floating.Text

/-! Forms: how a structure with declared members is read from a document. The members stand in
an object, in any order and among others, or in a list, in the order of their declaration. The
first error in the order of the document is reported. -/

namespace WireSchema

open Json

/-- Where a document comes from. It decides what is said of surplus list items. -/
inductive Origin where
  /-- A text that is read while it is scanned. -/
  | text
  /-- A finished value. -/
  | value
  /-- A part of a document that was read as a whole before its form was known. -/
  | part
  deriving DecidableEq, Repr

abbrev Load := Except (LocatedError LoadError)

namespace Load

def fail (path : Path) (cause : LoadError) : Load α :=
  .error ⟨path, cause⟩

def failSyntax (path : Path) (error : SyntaxError) : Load α :=
  .error ⟨path, .syntaxError error⟩

def anything (room : Draft.Room) (path : Path) (draft : Draft) : Load Json :=
  match draft.read room path with
  | .ok json => .ok json
  | .error located => failSyntax located.path located.cause

def foundNumber : Number → String
  | .int i => s!"integer `{i}`"
  | .float x => "floating point `" ++ Floating.jsonStyle.text x ++ "`"

def found : Draft → Except SyntaxError String
  | .null => .ok "null"
  | .bool b => .ok s!"boolean `{b}`"
  | .number n => n.map foundNumber
  | .string s => s.map fun text => "string " ++ Quoted.quote text
  | .array _ _ => .ok "sequence"
  | .object _ _ => .ok "map"
  | .missing fault => .error fault.reading
  | .noColon error => .error error

def failType (path : Path) (draft : Draft) (expected : String) : Load α :=
  match found draft with
  | .ok text => fail path (.invalidType text expected)
  | .error error => failSyntax path error

def string (path : Path) : Draft → Load String
  | .string (.ok text) => .ok text
  | draft => failType path draft "a string"

def optionalString (path : Path) : Draft → Load (Option String)
  | .null => .ok none
  | draft => (string path draft).map some

def items (read : Path → Draft → Load α) (path : Path) : Nat → List Draft → Load (List α)
  | _, [] => .ok []
  | position, item :: rest => do
    let value ← read (path ++ [.index position]) item
    return value :: (← items read path (position + 1) rest)

def list (read : Path → Draft → Load α) (path : Path) : Draft → Load (List α)
  | .array drafts stop => do
    let values ← items read path 0 drafts
    match stop with
    | none => return values
    | some fault => failSyntax path fault.reading
  | draft => failType path draft "a sequence"

end Load

/-- A declared member, which fills a part of the state. -/
structure Slot (σ : Type) where
  name : String
  required : Bool
  filled : σ → Bool
  read : Path → Draft → σ → Load σ

structure Form (σ : Type) where
  expected : String
  slots : List (Slot σ)

namespace Form

def countText (count : Nat) : String :=
  if count = 1 then "1 element" else s!"{count} elements"

def surplus (origin : Origin) (path : Path) (length slots : Nat) : Load α :=
  match origin with
  | .text => Load.failSyntax path .trailingCharacters
  | .value => Load.fail path (.invalidLength length "fewer elements in array")
  | .part => Load.fail path (.invalidLength length (countText slots ++ " in sequence"))

def closingError : SyntaxError → SyntaxError
  | .endOfArray => .endOfArray
  | .trailingComma => .trailingComma
  | _ => .trailingCharacters

def readList (form : Form σ) (origin : Origin) (path : Path) (length : Nat)
    (stop : Option Fault) : Nat → List (Slot σ) → List Draft → σ → Load σ
  | _, [], [], state =>
    match stop with
    | none => .ok state
    | some fault => Load.failSyntax path (closingError fault.reading)
  | _, [], _ :: _, _ => surplus origin path length form.slots.length
  | position, slot :: slots, [], state =>
    match stop with
    | some fault => Load.failSyntax path fault.reading
    | none =>
      if slot.required then
        Load.fail path
          (.invalidLength position (form.expected ++ " with " ++ countText form.slots.length))
      else readList form origin path length stop (position + 1) slots [] state
  | position, slot :: slots, item :: rest, state => do
    let state ← slot.read (path ++ [.index position]) item state
    readList form origin path length stop (position + 1) slots rest state

/-- Reads one member of an object. A member without a slot is skipped. -/
def readMember (form : Form σ) (path : Path) (key : String) (value : Draft) (state : σ) : Load σ :=
  match form.slots.find? fun slot => slot.name = key with
  | some slot =>
    if slot.filled state then Load.fail path (.duplicateField key)
    else match value with
      | .noColon error => Load.failSyntax path error
      | value => slot.read (path ++ [.key key]) value state
  | none =>
    match value with
    | .noColon error => Load.failSyntax path error
    | value =>
      match value.skip with
      | .ok () => .ok state
      | .error error => Load.failSyntax (path ++ [.key key]) error

def readMembers (form : Form σ) (path : Path) :
    List (Except SyntaxError String × Draft) → σ → Load σ
  | [], state => .ok state
  | (.error error, _) :: _, _ => Load.failSyntax (path ++ [.unknown]) error
  | (.ok key, value) :: rest, state => do
    readMembers form path rest (← form.readMember path key value state)

def missing? (form : Form σ) (state : σ) : Option String :=
  (form.slots.find? fun slot => slot.required && !slot.filled state).map Slot.name

def read (form : Form σ) (origin : Origin) (path : Path) (draft : Draft) (start : σ) : Load σ :=
  match draft with
  | .array items stop => form.readList origin path items.length stop 0 form.slots items start
  | .object members stop => do
    let state ← form.readMembers path members start
    if let some fault := stop then Load.failSyntax (path ++ [.unknown]) fault.reading
    match form.missing? state with
    | none => return state
    | some name => Load.fail path (.missingField name)
  | draft => Load.failType path draft form.expected

end Form

end WireSchema
