import WireSchema.Record
import WireSchema.Convert.Error
import WireSchema.Schema.Table

/-! Members of records, converted in the order of their declaration. The record holds what
turns each entry into a result, once the type and the path of a member are known. -/

namespace WireSchema

abbrev Converter (β : Type) := FieldType → String → Convert β

namespace Convert

/-- Every declared member of a record; entries without a declaration do not matter. -/
def members (converters : Record (Converter β)) (path : String) :
    List Field → Convert (List (String × β))
  | [] => .ok []
  | field :: rest =>
    match Record.get? converters field.name with
    | some convert => do
      let value ← convert field.type (atField path field.name)
      return (field.name, value) :: (← members converters path rest)
    | none => mismatch (atField path field.name) s!"field `{field.name}`" "nothing"

/-- As `members`, but absent members of an option type are filled in. -/
def membersOr (absent : β) (converters : Record (Converter β)) (path : String) :
    List Field → Convert (List (String × β))
  | [] => .ok []
  | field :: rest =>
    match Record.get? converters field.name, field.type with
    | some convert, type => do
      let value ← convert type (atField path field.name)
      return (field.name, value) :: (← membersOr absent converters path rest)
    | none, .option _ => do
      return (field.name, absent) :: (← membersOr absent converters path rest)
    | none, _ => mismatch (atField path field.name) s!"field `{field.name}`" "nothing"

def elements (path : String) : Nat → List FieldType → List (Converter β) → Convert (List β)
  | position, type :: types, convert :: converters => do
    let value ← convert type (atField path (tupleKey position))
    return value :: (← elements path (position + 1) types converters)
  | _, _, _ => .ok []

def checkArity (types : List FieldType) (length : Nat) (path : String) : Convert Unit :=
  if types.length = length then .ok ()
  else mismatch path s!"{types.length} elements" s!"{length} elements"

def checkDeclared (declared : List Field) (keys : List String) (path : String) : Convert Unit :=
  match keys.find? fun key => !declared.any fun field => field.name = key with
  | some key => mismatch (atField path key) "no such field" "a value"
  | none => .ok ()

def definition (table : Table) (name path : String) : Convert TypeBody :=
  match table.find? name with
  | some type => .ok type.body
  | none => mismatch path s!"defined type `{name}`" "unknown type"

def findVariant (enumName : String) (variants : List Variant) (kind : String) :
    Convert (Nat × Variant) :=
  match variants.findIdx? (·.name = kind), variants.find? (·.name = kind) with
  | some position, some variant => .ok (position, variant)
  | _, _ => .error (.unrecognizedKind enumName kind)

def tagOf (position : Nat) : UInt8 := UInt8.ofNat position

end Convert

def Shape.kindName : Shape → String
  | empty => "empty payload"
  | named _ => "named payload"
  | tuple _ => "tuple payload"

end WireSchema
