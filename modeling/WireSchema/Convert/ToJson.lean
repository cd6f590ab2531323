import WireSchema.Convert.ToTree
import WireSchema.Json.Basic

/-! JSON forms of values. Wide integers are decimal text, byte strings are arrays of numbers,
maps are arrays of pairs, and the value of an enum is an object with its kind. -/

namespace WireSchema

def Primitive.jsonOfValue (p : Primitive) (value : Value) (path : String) : Convert Json :=
  match p, value with
  | bool, .bool b => .ok (.bool b)
  | unsigned w, .unsigned n =>
    if w.containsNat n then .ok (if w.isWide then .string (toString n) else .nat n)
    else Convert.mismatch path p.name value.kindName
  | signed w, .signed i =>
    if w.containsInt i then .ok (if w.isWide then .string (toString i) else .int i)
    else Convert.mismatch path p.name value.kindName
  | single, .float x | double, .float x => .ok (.ofFloat x)
  | string, .string s => .ok (.string s)
  | bytes, .bytes b => .ok (.array (b.map fun byte => .nat byte.toNat))
  | publicKey, .publicKey key => .ok (.string key.text)
  | _, value => Convert.mismatch path p.name value.kindName

namespace Value

def jsonOfLeaf (table : Table) (value : Value) (type : FieldType) (path : String) : Convert Json :=
  match type with
  | .primitive p => p.jsonOfValue value path
  | type => value.rejected table type path

/-- The object of a value of an enum; an empty payload leaves no trace in it. -/
def variantObject (kind : String) (body : Option Json) : Json :=
  .object (("kind", .string kind) :: (body.map fun json => ("value", json)).toList)

def jsonOfPayload (shape : Shape) (payload : Payload (Converter Json))
    (keyed : Record (Converter Json)) (path : String) : Convert (Option Json) :=
  match shape, payload with
  | .empty, .empty => .ok none
  | .named declared, .named _ => do
    return some (.object (← Convert.members keyed path declared))
  | .tuple types, .tuple items => do
    Convert.checkArity types items.length path
    return some (.array (← Convert.elements path 0 types items))
  | shape, payload => Convert.mismatch path shape.kindName payload.kindName

mutual

def toJson (table : Table) : Value → FieldType → String → Convert Json
  | .list items, type, path =>
    match type with
    | .vec item => (jsonItems table items item path 0).map .array
    | .array item length =>
      if items.length = length then (jsonItems table items item path 0).map .array
      else Convert.mismatch path type.text s!"{items.length} elements"
    | type => jsonOfLeaf table (.list items) type path
  | .option none, type, path =>
    match type with
    | .option _ => .ok .null
    | type => jsonOfLeaf table (.option none) type path
  | .option (some value), type, path =>
    match type with
    | .option item => toJson table value item path
    | type => jsonOfLeaf table (.option (some value)) type path
  | .map entries, type, path =>
    match type with
    | .hashMap key value => (jsonEntries table entries key value path 0).map .array
    | type => jsonOfLeaf table (.map entries) type path
  | .struct typeName fields, type, path =>
    match type with
    | .defined name => do
      match ← Convert.definition table name path with
      | .struct declared =>
        if typeName = name then
          return .object (← Convert.members (jsonFields table fields) path declared)
        else (Value.struct typeName fields).notStruct name path
      | .enum _ => (Value.struct typeName fields).notEnum name path
    | type => jsonOfLeaf table (.struct typeName fields) type path
  | .enum typeName kind tag payload, type, path =>
    match type with
    | .defined name => do
      match ← Convert.definition table name path with
      | .enum variants =>
        if typeName = name then
          let variant ← checkVariant name variants kind tag path
          let inner := Convert.atField path kind
          let body ← match payload with
            | .empty => jsonOfPayload variant.shape .empty [] inner
            | .named fields =>
              jsonOfPayload variant.shape (.named []) (jsonFields table fields) inner
            | .tuple items =>
              jsonOfPayload variant.shape (.tuple (jsonElements table items)) [] inner
          return variantObject kind body
        else (Value.enum typeName kind tag payload).notEnum name path
      | .struct _ => (Value.enum typeName kind tag payload).notStruct name path
    | type => jsonOfLeaf table (.enum typeName kind tag payload) type path
  | .bool b, type, path => jsonOfLeaf table (.bool b) type path
  | .unsigned n, type, path => jsonOfLeaf table (.unsigned n) type path
  | .signed i, type, path => jsonOfLeaf table (.signed i) type path
  | .float x, type, path => jsonOfLeaf table (.float x) type path
  | .string s, type, path => jsonOfLeaf table (.string s) type path
  | .bytes b, type, path => jsonOfLeaf table (.bytes b) type path
  | .publicKey key, type, path => jsonOfLeaf table (.publicKey key) type path
termination_by structural value => value

def jsonItems (table : Table) : List Value → FieldType → String → Nat → Convert (List Json)
  | [], _, _, _ => .ok []
  | item :: rest, type, path, position => do
    let json ← toJson table item type (Convert.atIndex path position)
    return json :: (← jsonItems table rest type path (position + 1))
termination_by structural items => items

def jsonEntries (table : Table) : List (Value × Value) → FieldType → FieldType → String → Nat →
    Convert (List Json)
  | [], _, _, _, _ => .ok []
  | (key, item) :: rest, keyType, itemType, path, position => do
    let inner := Convert.atIndex path position
    let key ← toJson table key keyType inner
    let item ← toJson table item itemType inner
    return .array [key, item] :: (← jsonEntries table rest keyType itemType path (position + 1))
termination_by structural entries => entries

def jsonFields (table : Table) : List (String × Value) → Record (Converter Json)
  | [] => []
  | (key, value) :: rest => (key, toJson table value) :: jsonFields table rest
termination_by structural fields => fields

def jsonElements (table : Table) : List Value → List (Converter Json)
  | [] => []
  | value :: rest => toJson table value :: jsonElements table rest
termination_by structural items => items

end

end Value

end WireSchema
