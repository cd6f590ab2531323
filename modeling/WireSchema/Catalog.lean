import WireSchema.Layout.Synthesis
import WireSchema.Naming

/-! Catalogs: tables whose definitions can be emitted side by side, with the layouts of their
types. -/

namespace WireSchema

def TypeDef.exportedItems (type : TypeDef) : List String :=
  match type.body with
  | .struct _ =>
    [Naming.typeIdent type.name, Naming.fieldsItem type.name, Naming.jsonItem type.name]
  | .enum _ => [Naming.jsonItem type.name, Naming.kindItem type.name]

def TypeDef.moduleIdent (type : TypeDef) : String :=
  Naming.fieldIdent type.name

structure Catalog where
  table : Table
  registry : Registry
  deriving Repr

namespace Catalog

def claim (owner : String) (taken : List String) : List String → Except SchemaError (List String)
  | [] => .ok taken
  | name :: rest => do
    if taken.contains name then throw (.duplicateType owner)
    claim owner (name :: taken) rest

/-- Names that differ may share a file or an item. -/
def checkItems : List String → List String → List TypeDef → Except SchemaError Unit
  | _, _, [] => .ok ()
  | stems, items, type :: rest => do
    let stems ← claim type.name stems [Naming.fileStem type.moduleIdent]
    let items ← claim type.name items type.exportedItems
    checkItems stems items rest

def ofIdl (idl : Idl) : Except SchemaError Catalog := do
  let table ← Table.ofIdl idl
  checkItems [] [] table.types
  return ⟨table, ← Registry.ofTable table⟩

end Catalog

end WireSchema
