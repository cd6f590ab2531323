import WireSchema.Rendering.StructModule

/-! The emitted module of an enum: a type for each variant, a union over them, and the
corresponding union in JSON. -/

namespace WireSchema.Scope

def tupleElements (types : List FieldType) (expression : Nat → FieldType → String) : List String :=
  types.mapIdx expression

def tupleText (elements : List String) : String :=
  " ".intercalate (elements.map fun element => element ++ ",")

/-! ## Variant types -/

def variantType (scope : Scope) (variant : MemberVariant) : Source :=
  .line "#[derive(Debug, Clone, PartialEq)]" ::
    match variant.shape with
    | .empty => [.line s!"pub struct {variant.ident};"]
    | .named members =>
      Source.block s!"pub struct {variant.ident}" (scope.memberLines .built members)
    | .tuple types =>
      let items := types.map fun type => "pub " ++ scope.valueType .built type
      let items := ", ".intercalate items
      [.line s!"pub struct {variant.ident}({items});"]

def variantToJson (scope : Scope) (variant : MemberVariant) : Source :=
  let target := s!"{Naming.jsonItem scope.owner}::{variant.ident}"
  Source.block s!"pub fn to_json(&self) -> {Naming.jsonItem scope.owner}" <|
    match variant.shape with
    | .empty => [.line target]
    | .named members => Source.block target <| initialLines members fun m =>
        scope.jsonWriter m.field.type s!"&self.{m.ident}"
    | .tuple types =>
      let items := tupleText <| tupleElements types fun position type =>
        scope.jsonWriter type s!"&self.{position}"
      [.line s!"{target}(({items}))"]

def variantToTree (scope : Scope) (variant : MemberVariant) : Source :=
  let written (entries : Source) : Source :=
    Source.continued "Decoded::variant_of(Self::KIND, Decoded::structure([" "]))" entries
  Source.block "pub fn to_encodable(&self) -> Decoded" <|
    match variant.shape with
    | .empty => [.line "Decoded::variant_of(Self::KIND, Decoded::empty())"]
    | .named members => written <| entryLines members fun m =>
        scope.treeWriter .built m.field.type s!"&self.{m.ident}"
    | .tuple types => written <| types.mapIdx fun position type =>
        let writer := scope.treeWriter .built type s!"&self.{position}"
        .line s!"({Quoted.quote (tupleKey position)}, {writer}),"

def variantItems (scope : Scope) (variant : MemberVariant) : List Source :=
  [scope.variantType variant,
   Source.block s!"impl {variant.ident}" <| Source.spaced
     [[.line s!"pub const DISCRIMINATOR: u8 = {variant.position};",
       .line s!"pub const KIND: &str = {Quoted.quote variant.name};"],
      scope.variantToJson variant,
      scope.variantToTree variant]]

/-! ## The union over the variants -/

def dispatch (variants : List MemberVariant) (arm : String → String) : Source :=
  if variants.isEmpty then [.line "match *self \x7b\x7d"]
  else Source.block "match self" (variants.map fun v => .line (arm v.ident))

def unionMethods (scope : Scope) (variants : List MemberVariant) : List Source :=
  let kindItem := Naming.kindItem scope.owner
  [Source.block "pub fn discriminator(&self) -> u8" <| dispatch variants fun ident =>
     s!"{kindItem}::{ident}(_) => {ident}::DISCRIMINATOR,",
   Source.block "pub fn kind(&self) -> &'static str" <| dispatch variants fun ident =>
     s!"{kindItem}::{ident}(_) => {ident}::KIND,",
   Source.block s!"pub fn to_json(&self) -> {Naming.jsonItem scope.owner}" <|
     dispatch variants fun ident => s!"{kindItem}::{ident}(value) => value.to_json(),",
   Source.block "pub fn to_encodable(&self) -> Decoded" <| dispatch variants fun ident =>
     s!"{kindItem}::{ident}(value) => value.to_encodable(),",
   Source.block "pub fn encode(&self) -> Result<Vec<u8>, CodecError>"
     [.line "layout().encode(&self.to_encodable(), super::registry())"],
   Source.block "pub fn decode(bytes: &[u8]) -> Result<Self, runtime::Error>"
     [.line "let decoded = layout().parse(bytes, super::registry())?;",
      .line "Ok(from_decoded(&decoded)?)"]]

/-! ## JSON -/

def jsonVariant (scope : Scope) (variant : MemberVariant) : Source :=
  renameLines variant.ident variant.name ++
    match variant.shape with
    | .empty => [.line s!"{variant.ident},"]
    | .named members => Source.enclosed variant.ident "," <| members.flatMap fun m =>
        renameLines m.ident m.field.name ++ [.line s!"{m.ident}: {scope.jsonType m.field.type},"]
    | .tuple types =>
      let items := tupleText (types.map scope.jsonType)
      [.line s!"{variant.ident}(({items})),"]

def jsonUnion (scope : Scope) (variants : List MemberVariant) : Source :=
  .line "#[derive(Debug, Clone, PartialEq, Serialize, Deserialize)]" ::
    (if variants.isEmpty then [] else [.line "#[serde(tag = \"kind\", content = \"value\")]"]) ++
    Source.block s!"pub enum {Naming.jsonItem scope.owner}" (variants.flatMap scope.jsonVariant)

/-! ## Converters -/

def unionLiteral (scope : Scope) (variant : MemberVariant) : String :=
  s!"{Naming.kindItem scope.owner}::{variant.ident}({variant.ident}"

def variantFromTree (scope : Scope) (variant : MemberVariant) : Source :=
  let name := Quoted.quote variant.name
  let literal := scope.unionLiteral variant
  Source.block s!"if let Some(val) = obj.variant({name})" <|
    match variant.shape with
    | .empty =>
      [.line s!"val.to_struct().map_err(|e| e.within({name}))?;", .line s!"return Ok({literal}));"]
    | .named members => Source.enclosed s!"return Ok({literal}" "));" <|
        initialLines members fun m => scope.fieldReader "val" m.field.name m.field.type
    | .tuple types =>
      let items := ", ".intercalate <| tupleElements types fun position type =>
        scope.fieldReader "val" (tupleKey position) type
      [.line s!"return Ok({literal}({items})));"]

def enumFromTree (scope : Scope) (variants : List MemberVariant) : Source :=
  let owner := Quoted.quote scope.owner
  Source.block
    s!"pub fn from_decoded(obj: &Decoded) -> Result<{Naming.kindItem scope.owner}, ConvertError>" <|
    .line s!"runtime::check_single_variant(obj, {owner})?;" ::
      variants.flatMap scope.variantFromTree ++
      [.line s!"Err(runtime::no_variant_matched(obj, {owner}))"]

def tupleBinding (position : Nat) : String := s!"f{position}"

def variantFromJson (scope : Scope) (variant : MemberVariant) : Source :=
  let source := s!"{Naming.jsonItem scope.owner}::{variant.ident}"
  let literal := scope.unionLiteral variant
  match variant.shape with
  | .empty => [.line s!"{source} => {literal}),"]
  | .named members =>
    let bindings := ", ".intercalate (members.map Member.ident)
    Source.enclosed s!"{source} \x7b {bindings} \x7d => {literal}" ")," <|
      initialLines members fun m =>
        (scope.jsonReader m.field.type m.ident).unwrapWithin s!"{variant.name}.{m.field.name}"
  | .tuple types =>
    let bindings := ", ".intercalate (tupleElements types fun position _ => tupleBinding position)
    let comma := if types.length = 1 then "," else ""
    let items := ", ".intercalate <| tupleElements types fun position type =>
      (scope.jsonReader type (tupleBinding position)).unwrapWithin
        s!"{variant.name}.{tupleKey position}"
    [.line s!"{source}(({bindings}{comma})) => {literal}({items})),"]

def enumFromJson (scope : Scope) (variants : List MemberVariant) : Source :=
  let unused := if variants.isEmpty then "_" else ""
  let signature := s!"pub fn from_json({unused}obj: &{Naming.jsonItem scope.owner})"
  Source.block s!"{signature} -> Result<{Naming.kindItem scope.owner}, ConvertError>" <|
    if variants.isEmpty then [.line "Ok(match *_obj \x7b\x7d)"]
    else Source.enclosed "Ok(match obj" ")" (variants.flatMap scope.variantFromJson)

def enumItems (scope : Scope) (layout : Layout) (variants : List MemberVariant) : List Source :=
  let kindItem := Naming.kindItem scope.owner
  variants.flatMap scope.variantItems ++
    [.line "#[derive(Debug, Clone, PartialEq)]" ::
       Source.block s!"pub enum {kindItem}"
         (variants.map fun v => .line s!"{v.ident}({v.ident}),"),
     Source.block s!"impl {kindItem}" (Source.spaced (scope.unionMethods variants)),
     scope.jsonUnion variants,
     Source.block "pub fn layout() -> Layout" [.line layout.builder],
     scope.enumFromTree variants,
     scope.enumFromJson variants]

end WireSchema.Scope
