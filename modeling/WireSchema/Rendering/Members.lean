import WireSchema.Naming
import WireSchema.Schema.Basic
import WireSchema.Schema.Error

/-! Members and variants under the identifiers that emitted source has for them. Names that
differ may be given one identifier, which makes the definition impossible to emit. -/

namespace WireSchema

structure Member where
  ident : String
  field : Field
  deriving DecidableEq, Repr

/-- The members of a scope, without two of one identifier. -/
def Member.ofFields (scope : String) : List String → List Field → Except SchemaError (List Member)
  | _, [] => .ok []
  | seen, field :: rest => do
    let ident := Naming.fieldIdent field.name
    if seen.contains ident then throw (.duplicateField scope field.name)
    return ⟨ident, field⟩ :: (← ofFields scope (ident :: seen) rest)

inductive MemberShape where
  | empty
  | named (members : List Member)
  | tuple (types : List FieldType)
  deriving DecidableEq, Repr

def MemberShape.ofShape (scope : String) : Shape → Except SchemaError MemberShape
  | .empty => .ok .empty
  | .named fields => do return .named (← Member.ofFields scope [] fields)
  | .tuple types => .ok (.tuple types)

structure MemberVariant where
  name : String
  ident : String
  position : Nat
  shape : MemberShape
  deriving DecidableEq, Repr

namespace MemberVariant

/-- The identifier of a variant is neither that of a union over the variants nor that of an
earlier variant. -/
def checkIdents (enumName : String) : List String → List Variant → Except SchemaError Unit
  | _, [] => .ok ()
  | seen, variant :: rest => do
    let ident := Naming.typeIdent variant.name
    if ident = Naming.kindItem enumName || ident = Naming.jsonItem enumName then
      throw (.invalidIdentifier (enumName ++ "::" ++ variant.name))
    if seen.contains ident then throw (.duplicateVariant enumName variant.name)
    checkIdents enumName (ident :: seen) rest

def ofVariant (enumName : String) (position : Nat) (variant : Variant) :
    Except SchemaError MemberVariant := do
  let shape ← MemberShape.ofShape (enumName ++ "::" ++ variant.name) variant.shape
  return ⟨variant.name, Naming.typeIdent variant.name, position, shape⟩

def ofVariants (enumName : String) (variants : List Variant) :
    Except SchemaError (List MemberVariant) := do
  checkIdents enumName [] variants
  variants.zipIdx.mapM fun variant => ofVariant enumName variant.2 variant.1

end MemberVariant

end WireSchema
