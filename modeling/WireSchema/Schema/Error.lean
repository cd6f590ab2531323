import WireSchema.Json.Error

/-! What can be wrong with a schema: with its text, or with its definitions. -/

namespace WireSchema

inductive LoadError where
  | syntaxError (error : Json.SyntaxError)
  | invalidType (found expected : String)
  | invalidLength (length : Nat) (expected : String)
  | missingField (name : String)
  | duplicateField (name : String)
  | unknownBodyKind (name : String)
  | unknownPrimitive (name : String)
  | noFieldType
  | noPayload
  deriving DecidableEq, Repr

def LoadError.message : LoadError → String
  | .syntaxError error => error.message
  | .invalidType found expected => s!"invalid type: {found}, expected {expected}"
  | .invalidLength length expected => s!"invalid length {length}, expected {expected}"
  | .missingField name => s!"missing field `{name}`"
  | .duplicateField name => s!"duplicate field `{name}`"
  | .unknownBodyKind name => s!"unknown variant `{name}`, expected `struct` or `enum`"
  | .unknownPrimitive name => s!"unknown primitive type `{name}`"
  | .noFieldType => "data did not match any variant of untagged enum RawIdlType"
  | .noPayload => "data did not match any variant of untagged enum IdlEnumFields"

inductive SchemaError where
  | danglingReference (typeName field missing : String)
  /-- `cycle` starts and ends with the same type. -/
  | unboundedRecursion (typeName : String) (cycle : List String)
  | duplicateType (name : String)
  | duplicateField (scope field : String)
  | duplicateVariant (enumName variant : String)
  | invalidIdentifier (name : String)
  | tooManyVariants (enumName : String) (count : Nat)
  | unknownType (name : String)
  | parse (error : Json.LocatedError LoadError)
  deriving DecidableEq, Repr

def SchemaError.message : SchemaError → String
  | .danglingReference typeName field missing =>
    s!"type `{typeName}` field `{field}` references undefined type `{missing}`"
  | .unboundedRecursion typeName cycle =>
    let chain := " -> ".intercalate cycle
    s!"type `{typeName}` contains itself without indirection ({chain})"
  | .duplicateType name => s!"duplicate type definition `{name}`"
  | .duplicateField scope field => s!"type `{scope}` declares field `{field}` more than once"
  | .duplicateVariant enumName variant =>
    s!"enum `{enumName}` declares variant `{variant}` more than once"
  | .invalidIdentifier name => s!"invalid identifier `{name}`"
  | .tooManyVariants enumName count =>
    s!"enum `{enumName}` has {count} variants; a one-byte tag allows at most 256"
  | .unknownType name => s!"unknown type `{name}`"
  | .parse error =>
    s!"failed to parse IDL at JSON path {error.path.text} → {error.cause.message}"

end WireSchema
