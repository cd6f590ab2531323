import WireSchema.Schema.Error
import WireSchema.Schema.References

/-! Tables of definitions. A table is checked once: names are identifiers and unique in their
scope, references are declared, and no type contains itself without indirection. -/

namespace WireSchema

def isIdentifierStart (c : Char) : Bool :=
  c.isAlpha || c = '_'

def isIdentifierRest (c : Char) : Bool :=
  c.isAlphanum || c = '_'

/-- An ASCII letter or underscore, then letters, digits and underscores. -/
def isIdentifier (name : String) : Bool :=
  match name.toList with
  | [] => false
  | c :: rest => isIdentifierStart c && rest.all isIdentifierRest

/-- Tags have one byte. -/
def maxVariants : Nat := 256

structure Table where
  types : List TypeDef
  deriving DecidableEq, Repr

inductive TypeKind where
  | primitive
  | container
  | defined (kind : DefinedKind)
  deriving DecidableEq, Repr

namespace Table

def names (table : Table) : List String :=
  table.types.map TypeDef.name

def find? (table : Table) (name : String) : Option TypeDef :=
  table.types.find? fun type => type.name = name

def get (table : Table) (name : String) : Except SchemaError TypeDef :=
  match table.find? name with
  | some type => .ok type
  | none => .error (.unknownType name)

def kindOf (table : Table) (name : String) : Except SchemaError DefinedKind := do
  return (← table.get name).body.kind

def resolve (table : Table) : FieldType → Except SchemaError TypeKind
  | .primitive _ => .ok .primitive
  | .defined name => do return .defined (← table.kindOf name)
  | _ => .ok .container

/-! ## References -/

def namesOf (table : Table) (given : TypeBody → List String) (name : String) : List String :=
  match table.find? name with
  | some type => given type.body
  | none => []

def references (table : Table) : String → List String :=
  table.namesOf TypeBody.references

def contained (table : Table) : String → List String :=
  table.namesOf TypeBody.contained

def referenceCount (table : Table) : Nat :=
  (table.types.flatMap fun type => type.body.references).length

/-- The search for the names at the end of a chain of one or more references. The references of a
definition are entered once, so that it ends within a step for each of them. -/
def search (table : Table) (name : String) : Worklist :=
  Worklist.run table.references ((table.references name).length + table.referenceCount)
    ⟨[], (table.references name).reverse⟩

def reaches (table : Table) (source target : String) : Bool :=
  (table.search source).seen.contains target

/-- Whether an optional reference from `owner` to `target` closes a cycle. -/
def needsIndirection (table : Table) (owner target : String) : Bool :=
  owner = target || table.reaches target owner

/-! ## Checks -/

def checkIdentifier (name : String) : Except SchemaError Unit :=
  if isIdentifier name then .ok () else .error (.invalidIdentifier name)

/-- Items of a scope in turn: their names are new identifiers, and more of an item is checked
before or after its name is met. -/
def checkScope (name : α → String) (before after : α → Except SchemaError Unit)
    (duplicate : String → SchemaError) : List String → List α → Except SchemaError Unit
  | _, [] => .ok ()
  | seen, item :: rest => do
    checkIdentifier (name item)
    before item
    if seen.contains (name item) then throw (duplicate (name item))
    after item
    checkScope name before after duplicate (name item :: seen) rest

def unchecked (_ : α) : Except SchemaError Unit :=
  .ok ()

def checkFields (scope : String) : List Field → Except SchemaError Unit :=
  checkScope Field.name unchecked unchecked (.duplicateField scope) []

def checkShape (scope : String) : Shape → Except SchemaError Unit
  | .named fields => checkFields scope fields
  | _ => .ok ()

def checkVariants (enumName : String) : List Variant → Except SchemaError Unit :=
  checkScope Variant.name unchecked
    (fun variant => checkShape (enumName ++ "::" ++ variant.name) variant.shape)
    (.duplicateVariant enumName) []

def checkBody (name : String) : TypeBody → Except SchemaError Unit
  | .struct fields => checkFields name fields
  | .enum variants => do
    if variants.length > maxVariants then throw (.tooManyVariants name variants.length)
    checkVariants name variants

def checkTypes : List TypeDef → Except SchemaError Unit :=
  checkScope TypeDef.name (fun type => checkBody type.name type.body) unchecked .duplicateType []

def dangling? (table : Table) : Option SchemaError :=
  table.types.findSome? fun type =>
    type.body.positions.findSome? fun position =>
      (position.2.references.find? fun name => !table.names.contains name).map fun missing =>
        .danglingReference type.name position.1 missing

/-- Depth-first search along containment. `stack` holds the types on the way, the outermost
first, and `done` those that lie on no cycle. A stack holds each type once, so that fuel
beyond the number of types is never used. -/
def visit (table : Table) : Nat → List String → List String → String →
    Except SchemaError (List String)
  | 0, _, done, _ => .ok done
  | fuel + 1, stack, done, name =>
    if done.contains name then .ok done
    else if stack.contains name then
      .error (.unboundedRecursion name (stack.dropWhile (· ≠ name) ++ [name]))
    else do
      let done ← (table.contained name).foldlM (table.visit fuel (stack ++ [name])) done
      return name :: done

def checkContainment (table : Table) : Except SchemaError Unit := do
  let _ ← table.names.foldlM (table.visit (table.types.length + 1) []) []

def ofTypes (types : List TypeDef) : Except SchemaError Table := do
  checkTypes types
  let table : Table := ⟨types⟩
  if let some error := table.dangling? then throw error
  table.checkContainment
  return table

def ofIdl (idl : Idl) : Except SchemaError Table :=
  ofTypes idl.types

end Table

end WireSchema
