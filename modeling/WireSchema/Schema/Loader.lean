import WireSchema.Json.Scan.Value
import WireSchema.Schema.Basic
import WireSchema.Schema.Form

/-! Interface descriptions read from JSON documents. The body of a definition is read as a
whole, because its kind may stand anywhere in it; errors below it carry its path. -/

namespace WireSchema

open Json

/-! ## Field types -/

namespace FieldType

/-- A field type: the name of a primitive type, or an object with one member. -/
def ofJson? : Json → Option FieldType
  | .string name => (Primitive.ofName? name).map primitive
  | .object [("vec", item)] => (ofJson? item).map vec
  | .object [("option", item)] => (ofJson? item).map option
  | .object [("array", .array [item, length])] => do
    return array (← ofJson? item) (← length.natural?)
  | .object [("hashMap", .array [key, value])] => do
    return hashMap (← ofJson? key) (← ofJson? value)
  | .object [("defined", .string name)] => some (defined name)
  | _ => none

def ofJson (json : Json) : Except LoadError FieldType :=
  match ofJson? json, json with
  | some type, _ => .ok type
  | none, .string name => .error (.unknownPrimitive name)
  | none, _ => .error .noFieldType

end FieldType

/-! ## Bodies -/

structure FieldDraft where
  name : Option String
  type : Option FieldType

namespace Field

def form : Form FieldDraft where
  expected := "struct IdlField"
  slots := [
    { name := "name", required := true, filled := fun s => s.name.isSome
      read := fun path draft s => do return { s with name := ← Load.string path draft } },
    { name := "type", required := true, filled := fun s => s.type.isSome
      read := fun path draft s => do
        let json ← Load.anything none path draft
        match FieldType.ofJson json with
        | .ok type => return { s with type := type }
        | .error cause => Load.fail path cause }]

def load (path : Path) (draft : Draft) : Load Field := do
  let s ← form.read .part path draft ⟨none, none⟩
  match s.name, s.type with
  | some name, some type => return ⟨name, type⟩
  | none, _ => Load.fail path (.missingField "name")
  | _, none => Load.fail path (.missingField "type")

end Field

namespace Shape

/-- A list of fields if it is one, or else a list of field types. -/
def ofJson (json : Json) : Except LoadError Shape :=
  match json with
  | .array items =>
    match (items.map Draft.ofJson).mapM (Field.load []), items.mapM FieldType.ofJson? with
    | .ok [], _ => .ok .empty
    | .ok fields, _ => .ok (.named fields)
    | .error _, some types => .ok (.tuple types)
    | .error _, none => .error .noPayload
  | _ => .error .noPayload

end Shape

structure VariantDraft where
  name : Option String
  shape : Option Shape

namespace Variant

def form : Form VariantDraft where
  expected := "struct IdlEnumVariant"
  slots := [
    { name := "name", required := true, filled := fun s => s.name.isSome
      read := fun path draft s => do return { s with name := ← Load.string path draft } },
    { name := "fields", required := false, filled := fun s => s.shape.isSome
      read := fun path draft s => do
        match ← Load.anything none path draft with
        | .null => return { s with shape := some .empty }
        | json =>
          match Shape.ofJson json with
          | .ok shape => return { s with shape := shape }
          | .error cause => Load.fail path cause }]

def load (path : Path) (draft : Draft) : Load Variant := do
  let s ← form.read .part path draft ⟨none, none⟩
  match s.name with
  | some name => return ⟨name, s.shape.getD .empty⟩
  | none => Load.fail path (.missingField "name")

end Variant

namespace TypeBody

def structForm : Form (Option (List Field)) where
  expected := "struct variant IdlTypeDefTy::Struct"
  slots := [
    { name := "fields", required := true, filled := Option.isSome
      read := fun path draft _ => do return some (← Load.list Field.load path draft) }]

def enumForm : Form (Option (List Variant)) where
  expected := "struct variant IdlTypeDefTy::Enum"
  slots := [
    { name := "variants", required := true, filled := Option.isSome
      read := fun path draft _ => do return some (← Load.list Variant.load path draft) }]

def ofContent (kind : DefinedKind) (content : Json) : Load TypeBody :=
  match kind with
  | .struct => do
    return .struct ((← structForm.read .part [] (.ofJson content) none).getD [])
  | .enum => do
    return .enum ((← enumForm.read .part [] (.ofJson content) none).getD [])

def loadKind (path : Path) : Draft → Load DefinedKind
  | .string (.ok "struct") => .ok .struct
  | .string (.ok "enum") => .ok .enum
  | .string (.ok name) => Load.fail path (.unknownBodyKind name)
  | draft => Load.failType path draft "variant identifier"

def splitMembers (room : Draft.Room) (path : Path) :
    List (Except SyntaxError String × Draft) → Option DefinedKind →
    Load (Option DefinedKind × List (String × Json))
  | [], kind => .ok (kind, [])
  | (.error error, _) :: _, _ => Load.failSyntax (path ++ [.unknown]) error
  | (.ok key, value) :: rest, kind => do
    if key = "kind" then
      if kind.isSome then Load.fail path (.duplicateField "kind")
      else match value with
        | .noColon error => Load.failSyntax path error
        | value =>
          splitMembers room path rest (some (← loadKind (path ++ [.key "kind"]) value))
    else
      let json ← Load.anything room (path ++ [.key key]) value
      let (kind, others) ← splitMembers room path rest kind
      return (kind, (key, json) :: others)

def loadContent (room : Draft.Room) (path : Path) : Draft → Load (DefinedKind × Json)
  | .object members stop => do
    let (kind, others) ← splitMembers room path members none
    if let some fault := stop then Load.failSyntax (path ++ [.unknown]) fault.reading
    match kind with
    | some kind => return (kind, .object others)
    | none => Load.fail path (.missingField "kind")
  | .array [] stop =>
    match stop with
    | some fault => Load.failSyntax path fault.reading
    | none => Load.fail path (.missingField "kind")
  | .array (first :: rest) stop => do
    let kind ← loadKind (path ++ [.index 0]) first
    let others ← Load.items (Load.anything room) path 1 rest
    if let some fault := stop then Load.failSyntax path fault.reading
    return (kind, .array others)
  | draft => Load.failType path draft "internally tagged enum IdlTypeDefTy"

def load (room : Draft.Room) (path : Path) (draft : Draft) : Load TypeBody := do
  let (kind, content) ← loadContent room path draft
  match ofContent kind content with
  | .ok body => return body
  | .error located => Load.fail path located.cause

end TypeBody

/-! ## Documents -/

structure TypeDefDraft where
  name : Option String
  body : Option TypeBody

namespace TypeDef

def form (room : Draft.Room) : Form TypeDefDraft where
  expected := "struct IdlTypeDef"
  slots := [
    { name := "name", required := true, filled := fun s => s.name.isSome
      read := fun path draft s => do return { s with name := ← Load.string path draft } },
    { name := "type", required := true, filled := fun s => s.body.isSome
      read := fun path draft s => do return { s with body := ← TypeBody.load room path draft } }]

def load (origin : Origin) (room : Draft.Room) (path : Path) (draft : Draft) : Load TypeDef := do
  let s ← (form room).read origin path draft ⟨none, none⟩
  match s.name, s.body with
  | some name, some body => return ⟨name, body⟩
  | none, _ => Load.fail path (.missingField "name")
  | _, none => Load.fail path (.missingField "type")

end TypeDef

structure IdlDraft where
  version : Option (Option String)
  name : Option (Option String)
  types : Option (List TypeDef)

namespace Idl

def form (origin : Origin) (room : Draft.Room) : Form IdlDraft where
  expected := "struct Idl"
  slots := [
    { name := "version", required := false, filled := fun s => s.version.isSome
      read := fun path draft s => do
        return { s with version := some (← Load.optionalString path draft) } },
    { name := "name", required := false, filled := fun s => s.name.isSome
      read := fun path draft s => do
        return { s with name := some (← Load.optionalString path draft) } },
    { name := "types", required := false, filled := fun s => s.types.isSome
      read := fun path draft s => do
        return { s with types := ← Load.list (TypeDef.load origin room) path draft } }]

def load (origin : Origin) (room : Draft.Room) (draft : Draft) : Except SchemaError Idl :=
  match (form origin room).read origin [] draft ⟨none, none, none⟩ with
  | .ok s => .ok ⟨s.version.getD none, s.name.getD none, s.types.getD []⟩
  | .error located => .error (.parse located)

/-- Reads a text while it is scanned: members without a meaning are skipped, and nothing is
looked at after the document. Four brackets are open inside the body of a definition. -/
def ofText (text : String) : Except SchemaError Idl :=
  load .text (some 123) (Scan.scan text).1

def ofJson (json : Json) : Except SchemaError Idl :=
  load .value none (.ofJson json)

end Idl

end WireSchema
