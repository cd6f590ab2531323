import WireSchema.Convert.Access
import WireSchema.Convert.Members
import WireSchema.Value

/-! Values of trees. Entries of records that are not declared are passed over. -/

namespace WireSchema

def Primitive.valueOfTree (p : Primitive) (tree : Tree) : Convert Value :=
  match p with
  | bool => tree.toBool.map .bool
  | unsigned w => (tree.toUnsigned w).map .unsigned
  | signed w => (tree.toSigned w).map .signed
  | single => tree.toSingle.map .float
  | double => tree.toDouble.map .float
  | string => tree.toText.map .string
  | bytes => tree.toBytes.map .bytes
  | publicKey => tree.toPublicKey.map .publicKey

namespace Value

/-- A tree without parts, or with parts that its type has no use for. -/
def ofLeaf (table : Table) (tree : Tree) (type : FieldType) (path : String) : Convert Value :=
  match type with
  | .primitive p => Convert.within path (p.valueOfTree tree)
  | .vec _ | .array _ _ => Convert.within path (tree.expected "list")
  | .option _ => Convert.within path (tree.expected "option")
  | .hashMap _ _ => Convert.within path (tree.expected "map")
  | .defined name => do
    match ← Convert.definition table name path with
    | .struct _ => Convert.within path (tree.expected "record")
    | .enum _ =>
      tree.checkSingleVariant name
      throw (tree.noVariantMatched name)

def payloadOfRecord (converters : Record (Converter Value)) (path : String) (shape : Shape) :
    Convert (Payload Value) :=
  match shape with
  | .empty => .ok .empty
  | .named fields => (Convert.members converters path fields).map .named
  | .tuple _ => (Convert.members converters path shape.members).map fun items =>
      .tuple (items.map Prod.snd)

mutual

def ofTree (table : Table) : Tree → FieldType → String → Convert Value
  | .list items, type, path =>
    match type with
    | .vec item => (ofItems table items item path 0).map .list
    | .array item length =>
      if items.length = length then (ofItems table items item path 0).map .list
      else Convert.mismatch path type.text s!"{items.length} elements"
    | type => ofLeaf table (.list items) type path
  | .option none, type, path =>
    match type with
    | .option _ => .ok (.option none)
    | type => ofLeaf table (.option none) type path
  | .option (some tree), type, path =>
    match type with
    | .option item => (ofTree table tree item path).map fun value => .option (some value)
    | type => ofLeaf table (.option (some tree)) type path
  | .map entries, type, path =>
    match type with
    | .hashMap key value => (ofEntries table entries key value path 0).map .map
    | type => ofLeaf table (.map entries) type path
  | .record fields, type, path =>
    match type with
    | .defined name => do
      match ← Convert.definition table name path with
      | .struct declared =>
        return .struct name (← Convert.members (ofFields table fields) path declared)
      | .enum variants =>
        match fields with
        | [(kind, payload)] =>
          match Convert.findVariant name variants kind with
          | .ok (position, variant) =>
            let payload ← ofPayload table payload variant.shape (Convert.atField path kind)
            return .enum name kind (Convert.tagOf position) payload
          | .error _ => throw ((Tree.record fields).noVariantMatched name)
        | fields => ofLeaf table (.record fields) type path
    | type => ofLeaf table (.record fields) type path
  | .bool b, type, path => ofLeaf table (.bool b) type path
  | .unsigned n, type, path => ofLeaf table (.unsigned n) type path
  | .signed i, type, path => ofLeaf table (.signed i) type path
  | .float x, type, path => ofLeaf table (.float x) type path
  | .string s, type, path => ofLeaf table (.string s) type path
  | .bytes b, type, path => ofLeaf table (.bytes b) type path
termination_by structural tree => tree

def ofItems (table : Table) : List Tree → FieldType → String → Nat → Convert (List Value)
  | [], _, _, _ => .ok []
  | item :: rest, type, path, position => do
    let value ← ofTree table item type (Convert.atIndex path position)
    return value :: (← ofItems table rest type path (position + 1))
termination_by structural items => items

def ofEntries (table : Table) : List (Tree × Tree) → FieldType → FieldType → String → Nat →
    Convert (List (Value × Value))
  | [], _, _, _, _ => .ok []
  | (key, item) :: rest, keyType, itemType, path, position => do
    let inner := Convert.atIndex path position
    let key ← ofTree table key keyType inner
    let item ← ofTree table item itemType inner
    return (key, item) :: (← ofEntries table rest keyType itemType path (position + 1))
termination_by structural entries => entries

def ofFields (table : Table) : List (String × Tree) → Record (Converter Value)
  | [] => []
  | (key, tree) :: rest => (key, ofTree table tree) :: ofFields table rest
termination_by structural fields => fields

def ofPayload (table : Table) : Tree → Shape → String → Convert (Payload Value)
  | .record fields, shape, path => payloadOfRecord (ofFields table fields) path shape
  | tree, _, path => Convert.within path (tree.expected "record")
termination_by structural tree => tree

end

end Value

end WireSchema
