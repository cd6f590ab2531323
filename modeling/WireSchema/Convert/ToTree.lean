import WireSchema.Codec.Tree
import WireSchema.Convert.Members
import WireSchema.Floating.Text
import WireSchema.Value

/-! Trees of values. This is also the check that a value belongs to its type. -/

namespace WireSchema

def Primitive.treeOfValue (p : Primitive) (value : Value) (path : String) : Convert Tree :=
  let reject (found : String) : Convert Tree := Convert.mismatch path p.name found
  match p, value with
  | bool, .bool b => .ok (.bool b)
  | unsigned w, .unsigned n => if w.containsNat n then .ok (.unsigned n) else reject (toString n)
  | signed w, .signed i => if w.containsInt i then .ok (.signed i) else reject (toString i)
  | single, .float x =>
    if x.isNaN || x.toSingle = x then .ok (.float x) else reject (Floating.plainStyle.text x)
  | double, .float x => .ok (.float x)
  | string, .string s => .ok (.string s)
  | bytes, .bytes b => .ok (.bytes b)
  | publicKey, .publicKey key => .ok (.bytes key.bytes)
  | _, value => reject value.kindName

namespace Value

def typeText : Value → String
  | struct typeName _ => "struct " ++ typeName
  | enum typeName _ _ _ => "enum " ++ typeName
  | value => value.kindName

def notStruct (value : Value) (name path : String) : Convert α :=
  Convert.mismatch path ("struct " ++ name) <| match value with
    | struct _ _ => value.typeText
    | value => value.kindName

def notEnum (value : Value) (name path : String) : Convert α :=
  Convert.mismatch path ("enum " ++ name) <| match value with
    | enum _ _ _ _ => value.typeText
    | value => value.kindName

def rejected (table : Table) (value : Value) (type : FieldType) (path : String) : Convert α :=
  match type with
  | .defined name => do
    match ← Convert.definition table name path with
    | .struct _ => value.notStruct name path
    | .enum _ => value.notEnum name path
  | type => Convert.mismatch path type.text value.kindName

def treeOfLeaf (table : Table) (value : Value) (type : FieldType) (path : String) : Convert Tree :=
  match type with
  | .primitive p => p.treeOfValue value path
  | type => value.rejected table type path

def checkVariant (name : String) (variants : List Variant) (kind : String) (tag : UInt8)
    (path : String) : Convert Variant := do
  let (position, variant) ← Convert.findVariant name variants kind
  if tag.toNat = position then return variant
  else Convert.mismatch path s!"discriminator {position} for `{kind}`" (toString tag.toNat)

def treeOfFields (declared : List Field) (converters : Record (Converter Tree)) (path : String) :
    Convert Tree := do
  Convert.checkDeclared declared (Record.keys converters) path
  return .record (← Convert.members converters path declared)

def treeOfPayload (shape : Shape) (payload : Payload (Converter Tree))
    (keyed : Record (Converter Tree)) (path : String) : Convert Tree :=
  match shape, payload with
  | .empty, .empty => .ok (.record [])
  | .named declared, .named _ => treeOfFields declared keyed path
  | .tuple types, .tuple items => do
    Convert.checkArity types items.length path
    let trees ← Convert.elements path 0 types items
    return .record (trees.mapIdx fun position tree => (tupleKey position, tree))
  | shape, payload => Convert.mismatch path shape.kindName payload.kindName

mutual

def toTree (table : Table) : Value → FieldType → String → Convert Tree
  | .list items, type, path =>
    match type with
    | .vec item => (treeItems table items item path 0).map .list
    | .array item length =>
      if items.length = length then (treeItems table items item path 0).map .list
      else Convert.mismatch path type.text s!"{items.length} elements"
    | type => treeOfLeaf table (.list items) type path
  | .option none, type, path =>
    match type with
    | .option _ => .ok (.option none)
    | type => treeOfLeaf table (.option none) type path
  | .option (some value), type, path =>
    match type with
    | .option item => (toTree table value item path).map fun tree => .option (some tree)
    | type => treeOfLeaf table (.option (some value)) type path
  | .map entries, type, path =>
    match type with
    | .hashMap key value => (treeEntries table entries key value path 0).map .map
    | type => treeOfLeaf table (.map entries) type path
  | .struct typeName fields, type, path =>
    match type with
    | .defined name => do
      match ← Convert.definition table name path with
      | .struct declared =>
        if typeName = name then treeOfFields declared (treeFields table fields) path
        else (Value.struct typeName fields).notStruct name path
      | .enum _ => (Value.struct typeName fields).notEnum name path
    | type => treeOfLeaf table (.struct typeName fields) type path
  | .enum typeName kind tag payload, type, path =>
    match type with
    | .defined name => do
      match ← Convert.definition table name path with
      | .enum variants =>
        if typeName = name then
          let variant ← checkVariant name variants kind tag path
          let inner := Convert.atField path kind
          let tree ← match payload with
            | .empty => treeOfPayload variant.shape .empty [] inner
            | .named fields =>
              treeOfPayload variant.shape (.named []) (treeFields table fields) inner
            | .tuple items =>
              treeOfPayload variant.shape (.tuple (treeElements table items)) [] inner
          return .variant kind tree
        else (Value.enum typeName kind tag payload).notEnum name path
      | .struct _ => (Value.enum typeName kind tag payload).notStruct name path
    | type => treeOfLeaf table (.enum typeName kind tag payload) type path
  | .bool b, type, path => treeOfLeaf table (.bool b) type path
  | .unsigned n, type, path => treeOfLeaf table (.unsigned n) type path
  | .signed i, type, path => treeOfLeaf table (.signed i) type path
  | .float x, type, path => treeOfLeaf table (.float x) type path
  | .string s, type, path => treeOfLeaf table (.string s) type path
  | .bytes b, type, path => treeOfLeaf table (.bytes b) type path
  | .publicKey key, type, path => treeOfLeaf table (.publicKey key) type path
termination_by structural value => value

def treeItems (table : Table) : List Value → FieldType → String → Nat → Convert (List Tree)
  | [], _, _, _ => .ok []
  | item :: rest, type, path, position => do
    let tree ← toTree table item type (Convert.atIndex path position)
    return tree :: (← treeItems table rest type path (position + 1))
termination_by structural items => items

def treeEntries (table : Table) : List (Value × Value) → FieldType → FieldType → String → Nat →
    Convert (List (Tree × Tree))
  | [], _, _, _, _ => .ok []
  | (key, item) :: rest, keyType, itemType, path, position => do
    let inner := Convert.atIndex path position
    let key ← toTree table key keyType inner
    let item ← toTree table item itemType inner
    return (key, item) :: (← treeEntries table rest keyType itemType path (position + 1))
termination_by structural entries => entries

def treeFields (table : Table) : List (String × Value) → Record (Converter Tree)
  | [] => []
  | (key, value) :: rest => (key, toTree table value) :: treeFields table rest
termination_by structural fields => fields

def treeElements (table : Table) : List Value → List (Converter Tree)
  | [] => []
  | value :: rest => toTree table value :: treeElements table rest
termination_by structural items => items

end

end Value

end WireSchema
