import WireSchema.Naming
import WireSchema.Schema.Table

/-! Types in emitted modules. Each definition has a module of its own, so that what a type is
called depends on the module it is called from. -/

namespace WireSchema

/-- What a reference to a struct stands for: the plain record of its fields, or the struct
that is built from one. -/
inductive ValueForm where
  | fields
  | built
  deriving DecidableEq, Repr

namespace Primitive

/-- Whether values are copied rather than cloned, and have the same type in JSON. -/
def isCopied : Primitive → Bool
  | bool | single | double => true
  | unsigned w | signed w => !w.isWide
  | _ => false

def typeText : Primitive → String
  | string => "String"
  | bytes => "Vec<u8>"
  | publicKey => "PublicKey"
  | p => p.name

def jsonTypeText : Primitive → String
  | publicKey => "String"
  | p => if p.isWideInteger then "String" else p.typeText

end Primitive

def FieldType.isJsonIdentity : FieldType → Bool
  | primitive p => p.isCopied || p = .string || p = .bytes
  | vec item | option item => item.isJsonIdentity
  | hashMap key value => key.isJsonIdentity && value.isJsonIdentity
  | array _ _ | defined _ => false

structure Scope where
  table : Table
  owner : String

namespace Scope

def itemPath (scope : Scope) (name item : String) : String :=
  if scope.owner = name then item else s!"super::{Naming.fieldIdent name}::{item}"

def kindOf (scope : Scope) (name : String) : DefinedKind :=
  match scope.table.find? name with
  | some type => type.body.kind
  | none => .struct

/-- Whether an option of a type needs a box, because it closes a cycle by value. -/
def needsBox (scope : Scope) : FieldType → Bool
  | .defined name => scope.table.needsIndirection scope.owner name
  | .array item _ => scope.needsBox item
  | _ => false

def optionText (boxed : Bool) (item : String) : String :=
  if boxed then s!"Option<Box<{item}>>" else s!"Option<{item}>"

def valueType (scope : Scope) (form : ValueForm) : FieldType → String
  | .primitive p => p.typeText
  | .vec item => s!"Vec<{scope.valueType form item}>"
  | .array item length => s!"[{scope.valueType form item}; {length}]"
  | .option item => optionText (scope.needsBox item) (scope.valueType form item)
  | .hashMap key value => s!"Vec<({scope.valueType form key}, {scope.valueType form value})>"
  | .defined name => scope.itemPath name <|
    match scope.kindOf name, form with
    | .struct, .fields => Naming.fieldsItem name
    | .struct, .built => Naming.typeIdent name
    | .enum, _ => Naming.kindItem name

def jsonType (scope : Scope) : FieldType → String
  | .primitive p => p.jsonTypeText
  | .vec item | .array item _ => s!"Vec<{scope.jsonType item}>"
  | .option item => optionText (scope.needsBox item) (scope.jsonType item)
  | .hashMap key value => s!"Vec<({scope.jsonType key}, {scope.jsonType value})>"
  | .defined name => scope.itemPath name (Naming.jsonItem name)

def hasStruct (scope : Scope) : FieldType → Bool
  | .primitive _ => false
  | .vec item | .array item _ | .option item => scope.hasStruct item
  | .hashMap key value => scope.hasStruct key || scope.hasStruct value
  | .defined name => scope.kindOf name = .struct

end Scope

end WireSchema
