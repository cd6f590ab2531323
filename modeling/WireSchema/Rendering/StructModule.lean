import WireSchema.Layout.Text
import WireSchema.Rendering.Expression
import WireSchema.Rendering.Members
import WireSchema.Source

/-! The emitted module of a struct: the record of its fields, its JSON form, and the struct
with its converters. -/

namespace WireSchema

/-- The name of a member in JSON, where its identifier does not tell it. -/
def renameLines (ident name : String) : Source :=
  if Naming.fileStem ident = name then [] else [.line s!"#[serde(rename = {Quoted.quote name})]"]

namespace Scope

def memberLines (scope : Scope) (form : ValueForm) (members : List Member) : Source :=
  members.map fun m => .line s!"pub {m.ident}: {scope.valueType form m.field.type},"

def jsonMemberLines (scope : Scope) (members : List Member) : Source :=
  members.flatMap fun m =>
    renameLines m.ident m.field.name ++ [.line s!"pub {m.ident}: {scope.jsonType m.field.type},"]

def initialLines (members : List Member) (expression : Member → String) : Source :=
  members.map fun m => .line s!"{m.ident}: {expression m},"

def entryLines (members : List Member) (expression : Member → String) : Source :=
  members.map fun m => .line s!"({Quoted.quote m.field.name}, {expression m}),"

def fieldReader (scope : Scope) (record key : String) (type : FieldType) : String :=
  let reader := scope.treeReader type "v"
  s!"runtime::field({record}, {Quoted.quote key}, |v| {reader})?"

def structConverter (scope : Scope) (signature : String) (form : ValueForm) (record : String)
    (members : List Member) : Source :=
  Source.block signature <|
    if members.isEmpty then [.line "Decoded::empty()"]
    else Source.continued "Decoded::structure([" "])" (entryLines members fun m =>
      scope.treeWriter form m.field.type s!"&{record}.{m.ident}")

def structMethods (scope : Scope) (layout : Layout) (members : List Member) : List Source :=
  let fieldsItem := Naming.fieldsItem scope.owner
  let jsonItem := Naming.jsonItem scope.owner
  let unused := if members.isEmpty then "_" else ""
  [Source.block "pub fn layout() -> Layout" [.line layout.builder],
   Source.block s!"pub fn new({unused}fields: {fieldsItem}) -> Self" <|
     Source.block "Self" <| initialLines members fun m =>
       scope.initializer m.field.type s!"fields.{m.ident}",
   Source.block "pub fn from_decoded(obj: &Decoded) -> Result<Self, ConvertError>" <|
     (if members.isEmpty then [.line "obj.to_struct()?;"] else []) ++
     Source.enclosed "Ok(Self" ")" (initialLines members fun m =>
       scope.fieldReader "obj" m.field.name m.field.type),
   scope.structConverter s!"pub fn to_encodable({unused}fields: &{fieldsItem}) -> Decoded"
     .fields "fields" members,
   scope.structConverter "pub fn encodable(&self) -> Decoded" .built "self" members,
   Source.block s!"pub fn to_json(&self) -> {jsonItem}" <|
     Source.block jsonItem <| initialLines members fun m =>
       scope.jsonWriter m.field.type s!"&self.{m.ident}",
   Source.block s!"pub fn from_json({unused}obj: &{jsonItem}) -> Result<Self, ConvertError>" <|
     Source.enclosed "Ok(Self" ")" (initialLines members fun m =>
       (scope.jsonReader m.field.type s!"&obj.{m.ident}").unwrapWithin m.field.name),
   Source.block "pub fn encode(&self) -> Result<Vec<u8>, CodecError>"
     [.line "Self::layout().encode(&self.encodable(), super::registry())"],
   Source.block "pub fn decode(bytes: &[u8]) -> Result<Self, runtime::Error>"
     [.line "let decoded = Self::layout().parse(bytes, super::registry())?;",
      .line "Ok(Self::from_decoded(&decoded)?)"]]

def structItems (scope : Scope) (layout : Layout) (members : List Member) : List Source :=
  let ident := Naming.typeIdent scope.owner
  [.line s!"/// Field record accepted by [`{ident}::new`]." ::
     .line "#[derive(Debug, Clone, PartialEq)]" ::
     Source.block s!"pub struct {Naming.fieldsItem scope.owner}"
       (scope.memberLines .fields members),
   .line "#[derive(Debug, Clone, PartialEq, Serialize, Deserialize)]" ::
     Source.block s!"pub struct {Naming.jsonItem scope.owner}" (scope.jsonMemberLines members),
   .line "#[derive(Debug, Clone, PartialEq)]" ::
     Source.block s!"pub struct {ident}" (scope.memberLines .built members),
   Source.block s!"impl {ident}" (Source.spaced (scope.structMethods layout members))]

end Scope

end WireSchema
