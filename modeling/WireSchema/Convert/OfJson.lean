import WireSchema.Convert.Access
import WireSchema.Convert.Members
import WireSchema.Json.Basic
import WireSchema.Value

/-! Values of JSON. Members of objects that are not declared are passed over, and members of
an option type may be absent. -/

namespace WireSchema

namespace Convert

def jsonMismatch (path expected : String) (json : Json) : Convert α :=
  mismatch path expected json.kindName

def jsonAccess (path expected : String) (json : Json) (found : Option α) : Convert α :=
  match found with
  | some value => .ok value
  | none => jsonMismatch path expected json

def jsonByte (path : String) (json : Json) : Convert UInt8 :=
  match json.natural? with
  | some n => if n < 256 then .ok (UInt8.ofNat n) else jsonMismatch path "u8" json
  | none => jsonMismatch path "u8" json

def jsonBytes (path : String) : Nat → List Json → Convert (List UInt8)
  | _, [] => .ok []
  | position, item :: rest => do
    let byte ← jsonByte (atIndex path position) item
    return byte :: (← jsonBytes path (position + 1) rest)

/-- A number where the type is narrow, and decimal text where it is wide. -/
def jsonNumeral (p : Primitive) (read : String → Convert α) (number? : Json → Option α)
    (path : String) (json : Json) : Convert α :=
  if p.isWideInteger then do
    let text ← jsonAccess path "decimal integer string" json json.string?
    within path (read text)
  else jsonAccess path p.name json (number? json)

def jsonInteger [ToString α] (p : Primitive) (fits : α → Bool) (read : String → Convert α)
    (number? : Json → Option α) (path : String) (json : Json) : Convert α := do
  let n ← jsonNumeral p read number? path json
  if fits n then return n else mismatch path p.name (toString n)

def jsonUnsigned (w : Width) : String → Json → Convert Nat :=
  jsonInteger (.unsigned w) w.containsNat (readUnsigned .w128) Json.natural?

def jsonSigned (w : Width) : String → Json → Convert Int :=
  jsonInteger (.signed w) w.containsInt (readSigned .w128) Json.integer?

end Convert

def Primitive.valueOfJson (p : Primitive) (json : Json) (path : String) : Convert Value :=
  match p with
  | bool => (Convert.jsonAccess path p.name json json.bool?).map .bool
  | unsigned w => (Convert.jsonUnsigned w path json).map .unsigned
  | signed w => (Convert.jsonSigned w path json).map .signed
  | single => (Convert.jsonAccess path p.name json json.float?).map fun x => .float x.toSingle
  | double => (Convert.jsonAccess path p.name json json.float?).map .float
  | string => (Convert.jsonAccess path p.name json json.string?).map .string
  | bytes => do
    let items ← Convert.jsonAccess path "array of bytes" json json.array?
    return .bytes (← Convert.jsonBytes path 0 items)
  | publicKey => do
    let text ← Convert.jsonAccess path "base58 public key" json json.string?
    return .publicKey (← Convert.within path (Convert.readPublicKey text))

namespace FieldType

def optionDepth : FieldType → Nat
  | option item => item.optionDepth + 1
  | _ => 0

def core : FieldType → FieldType
  | option item => item.core
  | type => type

end FieldType

namespace Value

def wrapped : Nat → Value → Value
  | 0, value => value
  | depth + 1, value => .option (some (wrapped depth value))

def ofJsonLeaf (table : Table) (json : Json) (type : FieldType) (path : String) : Convert Value :=
  match type with
  | .primitive p => p.valueOfJson json path
  | .hashMap _ _ => Convert.jsonMismatch path "array of [key, value] pairs" json
  | .defined name => do
    match ← Convert.definition table name path with
    | .struct _ => Convert.jsonMismatch path ("object for " ++ name) json
    | .enum _ => Convert.jsonMismatch path ("\x7b\"kind\": ...\x7d object for " ++ name) json
  | type => Convert.jsonMismatch path type.text json

def kindOfMembers (members : Record Json) (path : String) : Convert String :=
  match Record.get? members "kind" with
  | some (.string kind) => .ok kind
  | some json => Convert.jsonMismatch (Convert.atField path "kind") "variant name" json
  | none => Convert.mismatch (Convert.atField path "kind") "variant name" "nothing"

/-- A body that has no use for a shape; an empty payload takes any body, or none. -/
def payloadWithout (found : String) (shape : Shape) (path : String) : Convert (Payload Value) :=
  match shape with
  | .empty => .ok .empty
  | .named _ => Convert.mismatch path "object" found
  | .tuple _ => Convert.mismatch path "array" found

abbrev PayloadConverter := Shape → String → Convert (Payload Value)

def enumOfBody (name : String) (variants : List Variant) (kind : String)
    (body : Option PayloadConverter) (path : String) : Convert Value := do
  let (position, variant) ← Convert.findVariant name variants kind
  let convert := body.getD (payloadWithout "nothing")
  let payload ← convert variant.shape (Convert.atField path kind)
  return .enum name kind (Convert.tagOf position) payload

mutual

def ofJson (table : Table) : Json → FieldType → String → Convert Value
  | .null, type, path =>
    match type with
    | .option _ => .ok (.option none)
    | type => ofJsonLeaf table .null type path
  | .array items, type, path => (wrapped type.optionDepth) <$>
    match type.core with
    | .vec item => (ofJsonItems table items item path 0).map .list
    | .array item length =>
      if items.length = length then (ofJsonItems table items item path 0).map .list
      else Convert.mismatch path type.core.text s!"{items.length} elements"
    | .hashMap key value => (ofJsonPairs table items key value path 0).map .map
    | core => ofJsonLeaf table (.array items) core path
  | .object members, type, path => (wrapped type.optionDepth) <$>
    match type.core with
    | .defined name => do
      match ← Convert.definition table name path with
      | .struct declared =>
        let fields ← Convert.membersOr (.option none) (ofJsonMembers table members) path declared
        return .struct name fields
      | .enum variants =>
        let kind ← kindOfMembers members path
        enumOfBody name variants kind (Record.get? (ofJsonBodies table members) "value") path
    | core => ofJsonLeaf table (.object members) core path
  | .bool b, type, path =>
    (wrapped type.optionDepth) <$> ofJsonLeaf table (.bool b) type.core path
  | .number n, type, path =>
    (wrapped type.optionDepth) <$> ofJsonLeaf table (.number n) type.core path
  | .string s, type, path =>
    (wrapped type.optionDepth) <$> ofJsonLeaf table (.string s) type.core path
termination_by structural json => json

def ofJsonItems (table : Table) : List Json → FieldType → String → Nat → Convert (List Value)
  | [], _, _, _ => .ok []
  | item :: rest, type, path, position => do
    let value ← ofJson table item type (Convert.atIndex path position)
    return value :: (← ofJsonItems table rest type path (position + 1))
termination_by structural items => items

def ofJsonPairs (table : Table) : List Json → FieldType → FieldType → String → Nat →
    Convert (List (Value × Value))
  | [], _, _, _, _ => .ok []
  | pair :: rest, keyType, itemType, path, position => do
    let entry ← ofJsonPair table pair keyType itemType (Convert.atIndex path position)
    return entry :: (← ofJsonPairs table rest keyType itemType path (position + 1))
termination_by structural items => items

def ofJsonPair (table : Table) : Json → FieldType → FieldType → String → Convert (Value × Value)
  | .array [key, item], keyType, itemType, path => do
    let key ← ofJson table key keyType path
    return (key, ← ofJson table item itemType path)
  | json, _, _, path => Convert.jsonMismatch path "[key, value] pair" json
termination_by structural json => json

def ofJsonMembers (table : Table) : List (String × Json) → Record (Converter Value)
  | [] => []
  | (key, json) :: rest => (key, ofJson table json) :: ofJsonMembers table rest
termination_by structural members => members

def ofJsonElements (table : Table) : List Json → List (Converter Value)
  | [] => []
  | json :: rest => ofJson table json :: ofJsonElements table rest
termination_by structural items => items

def ofJsonBodies (table : Table) : List (String × Json) → Record PayloadConverter
  | [] => []
  | (key, json) :: rest => (key, ofJsonBody table json) :: ofJsonBodies table rest
termination_by structural members => members

def ofJsonBody (table : Table) : Json → PayloadConverter
  | .object members, shape, path =>
    match shape with
    | .named declared =>
      (Convert.membersOr (.option none) (ofJsonMembers table members) path declared).map .named
    | shape => payloadWithout "object" shape path
  | .array items, shape, path =>
    match shape with
    | .tuple types => do
      Convert.checkArity types items.length path
      return .tuple (← Convert.elements path 0 types (ofJsonElements table items))
    | shape => payloadWithout "array" shape path
  | json, shape, path => payloadWithout json.kindName shape path
termination_by structural json => json

end

end Value

end WireSchema
