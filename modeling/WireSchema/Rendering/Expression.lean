import WireSchema.Rendering.TypeText
import WireSchema.Text.Quoted

/-! Expressions of emitted converters. The operand of each is an expression for a reference:
a borrowed place or a binding. -/

namespace WireSchema

/-- The place under a borrow; a binding is used as it is. -/
def operandPlace (operand : String) : String :=
  match operand.toList with
  | '&' :: place => String.ofList place
  | _ => operand

def operandCopy (operand : String) : String :=
  match operand.toList with
  | '&' :: place => String.ofList place
  | _ => "*" ++ operand

/-- An expression that may be a result rather than a value. -/
structure Expression where
  code : String
  fallible : Bool
  deriving DecidableEq, Repr

namespace Expression

def unwrap (e : Expression) : String :=
  if e.fallible then e.code ++ "?" else e.code

def unwrapWithin (e : Expression) (segment : String) : String :=
  if e.fallible then s!"{e.code}.map_err(|e| e.within({Quoted.quote segment}))?" else e.code

end Expression

def collectVec : String := "collect::<Vec<_>>()"

def collectResult : String := "collect::<Result<Vec<_>, _>>()"

namespace Primitive

def accessor : Primitive → String
  | string => "to_string_value"
  | publicKey => "to_public_key"
  | p => "to_" ++ p.name

end Primitive

namespace Scope

def treeReader (scope : Scope) : FieldType → String → String
  | .primitive p, operand => s!"{operand}.{p.accessor}()"
  | .vec item, operand =>
    let inner := scope.treeReader item "item"
    s!"{operand}.to_list().and_then(|items| items.iter().map(|item| {inner}).{collectResult})"
  | .array item _, operand =>
    let inner := scope.treeReader item "item"
    s!"{operand}.to_list().and_then(|items| items.iter().map(|item| {inner}).{collectResult})" ++
      ".and_then(runtime::into_array)"
  | .option item, operand =>
    let inner := scope.treeReader item "item"
    let boxing := if scope.needsBox item then ".map(Box::new)" else ""
    s!"{operand}.to_option().and_then(|item| item.map(|item| {inner}{boxing}).transpose())"
  | .hashMap key value, operand =>
    let first := scope.treeReader key "key"
    let second := scope.treeReader value "val"
    s!"{operand}.to_map().and_then(|entries| entries.iter()" ++
      s!".map(|(key, val)| Ok::<_, ConvertError>(({first}?, {second}?))).{collectResult})"
  | .defined name, operand =>
    match scope.kindOf name with
    | .struct => s!"{scope.itemPath name (Naming.typeIdent name)}::from_decoded({operand})"
    | .enum =>
      let reader := scope.itemPath name "from_decoded"
      s!"{reader}({operand})"

def treeWriter (scope : Scope) (form : ValueForm) : FieldType → String → String
  | .primitive _, operand => s!"Decoded::from({operand})"
  | .vec item, operand | .array item _, operand =>
    let inner := scope.treeWriter form item "item"
    s!"Decoded::List({operandPlace operand}.iter().map(|item| {inner}).collect())"
  | .option item, operand =>
    let inner := scope.treeWriter form item "item"
    s!"Decoded::Option({operandPlace operand}.as_ref().map(|item| Box::new({inner})))"
  | .hashMap key value, operand =>
    let first := scope.treeWriter form key "key"
    let second := scope.treeWriter form value "val"
    s!"Decoded::Map({operandPlace operand}.iter()" ++
      s!".map(|(key, val)| ({first}, {second})).collect())"
  | .defined name, operand =>
    match scope.kindOf name, form with
    | .struct, .fields => s!"{scope.itemPath name (Naming.typeIdent name)}::to_encodable({operand})"
    | .struct, .built => s!"{operandPlace operand}.encodable()"
    | .enum, _ => s!"{operandPlace operand}.to_encodable()"

def jsonWriter (scope : Scope) : FieldType → String → String
  | .primitive p, operand =>
    if p.isCopied then operandCopy operand
    else if p.isWideInteger || p = .publicKey then s!"{operandPlace operand}.to_string()"
    else s!"{operandPlace operand}.clone()"
  | .vec item, operand =>
    let inner := scope.jsonWriter item "item"
    if item.isJsonIdentity then s!"{operandPlace operand}.clone()"
    else s!"{operandPlace operand}.iter().map(|item| {inner}).{collectVec}"
  | .array item _, operand =>
    let inner := scope.jsonWriter item "item"
    s!"{operandPlace operand}.iter().map(|item| {inner}).{collectVec}"
  | .option item, operand =>
    let inner := scope.jsonWriter item "item"
    let boxed := if scope.needsBox item then s!"Box::new({inner})" else inner
    if item.isJsonIdentity then s!"{operandPlace operand}.clone()"
    else s!"{operandPlace operand}.as_ref().map(|item| {boxed})"
  | .hashMap key value, operand =>
    let first := scope.jsonWriter key "key"
    let second := scope.jsonWriter value "val"
    if key.isJsonIdentity && value.isJsonIdentity then s!"{operandPlace operand}.clone()"
    else s!"{operandPlace operand}.iter().map(|(key, val)| ({first}, {second})).{collectVec}"
  | .defined _, operand => s!"{operandPlace operand}.to_json()"

def collected (operand : String) (item : Expression) : Expression :=
  let collect := if item.fallible then collectResult else collectVec
  ⟨s!"{operandPlace operand}.iter().map(|item| {item.code}).{collect}", item.fallible⟩

def collectedArray (operand : String) (verbatim : Bool) (item : Expression) : Expression :=
  let code :=
    if verbatim then s!"runtime::into_array({operandPlace operand}.clone())"
    else if item.fallible then s!"{(collected operand item).code}.and_then(runtime::into_array)"
    else s!"runtime::into_array({(collected operand item).code})"
  ⟨code, true⟩

def mappedOption (operand : String) (boxed : Bool) (item : Expression) : Expression :=
  let inner := match item.fallible, boxed with
    | true, true => item.code ++ ".map(Box::new)"
    | false, true => s!"Box::new({item.code})"
    | _, false => item.code
  let transpose := if item.fallible then ".transpose()" else ""
  ⟨s!"{operandPlace operand}.as_ref().map(|item| {inner}){transpose}", item.fallible⟩

def collectedPairs (operand : String) (key value : Expression) : Expression :=
  if key.fallible || value.fallible then
    ⟨s!"{operandPlace operand}.iter().map(|(key, val)| Ok::<_, ConvertError>(({key.unwrap}, " ++
      s!"{value.unwrap}))).{collectResult}", true⟩
  else
    ⟨s!"{operandPlace operand}.iter().map(|(key, val)| ({key.code}, {value.code})).{collectVec}",
      false⟩

def jsonReader (scope : Scope) : FieldType → String → Expression
  | .primitive p, operand =>
    if p.isCopied then ⟨operandCopy operand, false⟩
    else if p.isWideInteger then ⟨s!"runtime::parse_wide({operand})", true⟩
    else if p = .publicKey then ⟨s!"runtime::parse_public_key({operand})", true⟩
    else ⟨s!"{operandPlace operand}.clone()", false⟩
  | .vec item, operand =>
    if item.isJsonIdentity then ⟨s!"{operandPlace operand}.clone()", false⟩
    else collected operand (scope.jsonReader item "item")
  | .array item _, operand =>
    collectedArray operand item.isJsonIdentity (scope.jsonReader item "item")
  | .option item, operand =>
    if item.isJsonIdentity then ⟨s!"{operandPlace operand}.clone()", false⟩
    else mappedOption operand (scope.needsBox item) (scope.jsonReader item "item")
  | .hashMap key value, operand =>
    if key.isJsonIdentity && value.isJsonIdentity then ⟨s!"{operandPlace operand}.clone()", false⟩
    else collectedPairs operand (scope.jsonReader key "key") (scope.jsonReader value "val")
  | .defined name, operand =>
    match scope.kindOf name with
    | .struct => ⟨s!"{scope.itemPath name (Naming.typeIdent name)}::from_json({operand})", true⟩
    | .enum =>
      let reader := scope.itemPath name "from_json"
      ⟨s!"{reader}({operand})", true⟩

/-- The value in a box; a call on it needs parentheses. -/
def unboxed : FieldType → String
  | .defined _ => "*item"
  | _ => "(*item)"

/-- From the plain form to the built one; the operand is owned here. -/
def initializer (scope : Scope) : FieldType → String → String
  | .primitive _, operand => operand
  | .vec item, operand =>
    let inner := scope.initializer item "item"
    if scope.hasStruct item then s!"{operand}.into_iter().map(|item| {inner}).{collectVec}"
    else operand
  | .array item _, operand =>
    let inner := scope.initializer item "item"
    if scope.hasStruct item then s!"{operand}.map(|item| {inner})" else operand
  | .option item, operand =>
    let inner := if scope.needsBox item then
        s!"Box::new({scope.initializer item (unboxed item)})"
      else scope.initializer item "item"
    if scope.hasStruct item then s!"{operand}.map(|item| {inner})" else operand
  | .hashMap key value, operand =>
    let first := scope.initializer key "key"
    let second := scope.initializer value "val"
    if scope.hasStruct key || scope.hasStruct value then
      s!"{operand}.into_iter().map(|(key, val)| ({first}, {second})).{collectVec}"
    else operand
  | .defined name, operand =>
    match scope.kindOf name with
    | .struct => s!"{scope.itemPath name (Naming.typeIdent name)}::new({operand})"
    | .enum => operand

end Scope

end WireSchema
