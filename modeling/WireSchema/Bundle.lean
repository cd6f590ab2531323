import WireSchema.Catalog
import WireSchema.Codec.Parse
import WireSchema.Convert.OfJson
import WireSchema.Convert.OfTree
import WireSchema.Convert.ToJson

/-! Bundles: the operations on the values of one definition. Paths in errors start with its
name. -/

namespace WireSchema

inductive TransferError where
  | codec (error : CodecError)
  | convert (error : ConvertError)
  deriving DecidableEq, Repr

def TransferError.message : TransferError → String
  | codec error => error.message
  | convert error => error.message

structure Bundle where
  table : Table
  registry : Registry
  type : TypeDef
  layout : Layout
  deriving Repr

def Catalog.bundle (catalog : Catalog) (name : String) : Except SchemaError Bundle := do
  let type ← catalog.table.get name
  return ⟨catalog.table, catalog.registry, type, ← Layout.ofBody catalog.table type.body⟩

def Catalog.bundles (catalog : Catalog) : Except SchemaError (List Bundle) :=
  catalog.table.names.mapM catalog.bundle

namespace Bundle

def name (bundle : Bundle) : String := bundle.type.name

def valueOfTree (bundle : Bundle) (tree : Tree) : Convert Value :=
  Value.ofTree bundle.table tree (.defined bundle.name) bundle.name

def treeOfValue (bundle : Bundle) (value : Value) : Convert Tree :=
  value.toTree bundle.table (.defined bundle.name) bundle.name

def valueOfJson (bundle : Bundle) (json : Json) : Convert Value :=
  Value.ofJson bundle.table json (.defined bundle.name) bundle.name

def jsonOfValue (bundle : Bundle) (value : Value) : Convert Json :=
  value.toJson bundle.table (.defined bundle.name) bundle.name

def encode (bundle : Bundle) (value : Value) : Except TransferError (List UInt8) := do
  let tree ← (bundle.treeOfValue value).mapError .convert
  (bundle.layout.encode bundle.registry tree).mapError .codec

def decode (bundle : Bundle) (bytes : List UInt8) : Except TransferError Value := do
  let tree ← (bundle.layout.parse bundle.registry bytes).mapError .codec
  (bundle.valueOfTree tree).mapError .convert

def checked (bundle : Bundle) (value : Value) : Convert Value := do
  let _ ← bundle.treeOfValue value
  return value

def constructStruct (bundle : Bundle) (fields : Record Value) : Convert Value :=
  bundle.checked (.struct bundle.name fields)

/-! ## Enums -/

def variants (bundle : Bundle) : List Variant :=
  match bundle.type.body with
  | .struct _ => []
  | .enum variants => variants

def variant (bundle : Bundle) (kind : String) : Convert (Nat × Variant) :=
  Convert.findVariant bundle.name bundle.variants kind

def constructEnum (bundle : Bundle) (kind : String) (payload : Payload Value) : Convert Value := do
  let (position, variant) ← bundle.variant kind
  bundle.checked (.enum bundle.name variant.name (Convert.tagOf position) payload)

def tagAndKind (bundle : Bundle) (value : Value) : Convert (UInt8 × String) :=
  match value with
  | .enum typeName kind tag _ =>
    if typeName = bundle.name then do
      let _ ← Value.checkVariant bundle.name bundle.variants kind tag bundle.name
      return (tag, kind)
    else value.notEnum bundle.name bundle.name
  | value => value.notEnum bundle.name bundle.name

def discriminator (bundle : Bundle) (value : Value) : Convert UInt8 :=
  (bundle.tagAndKind value).map Prod.fst

def kind (bundle : Bundle) (value : Value) : Convert String :=
  (bundle.tagAndKind value).map Prod.snd

end Bundle

end WireSchema
