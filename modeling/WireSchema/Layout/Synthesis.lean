import WireSchema.Layout.Basic
import WireSchema.Schema.Table

/-! Layouts of field types and of definitions. -/

namespace WireSchema

namespace Layout

/-- Names stay names; they only have to be declared. -/
def ofType (table : Table) : FieldType → Except SchemaError Layout
  | .primitive p => .ok (primitive p)
  | .vec item => do return vec (← ofType table item)
  | .array item length => do return array (← ofType table item) length
  | .option item => do return option (← ofType table item)
  | .hashMap key value => do return hashMap (← ofType table key) (← ofType table value)
  | .defined name => do
    let _ ← table.kindOf name
    return defined name

def ofField (table : Table) (field : Field) : Except SchemaError (String × Layout) := do
  return (field.name, ← ofType table field.type)

def ofShape (table : Table) (shape : Shape) : Except SchemaError Layout := do
  return struct (← shape.members.mapM (ofField table))

def ofVariant (table : Table) (variant : Variant) : Except SchemaError (String × Layout) := do
  return (variant.name, ← ofShape table variant.shape)

def ofBody (table : Table) : TypeBody → Except SchemaError Layout
  | .struct fields => do return struct (← fields.mapM (ofField table))
  | .enum variants => do return enum (← variants.mapM (ofVariant table))

end Layout

def Registry.ofTable (table : Table) : Except SchemaError Registry :=
  table.types.mapM fun type => do return (type.name, ← Layout.ofBody table type.body)

end WireSchema
