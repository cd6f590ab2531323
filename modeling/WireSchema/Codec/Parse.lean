import WireSchema.Codec.Encode
import WireSchema.Codec.Reader

/-! Reading trees under a layout. Bounds come before content: what is too short is never
called malformed. -/

namespace WireSchema

namespace Codec

def parseFlag (invalid : UInt8 → CodecError) : Read Bool := do
  match ← Read.byte with
  | 0 => return false
  | 1 => return true
  | other => Read.fail (invalid other)

def parseString : Read Tree := do
  match String.fromUTF8? ⟨(← Read.prefixed).toArray⟩ with
  | some text => return .string text
  | none => Read.fail .invalidUtf8

def parsePrimitive : Primitive → Read Tree
  | .bool => do return .bool (← parseFlag .invalidBool)
  | .unsigned w => do return .unsigned (Word.natOfBytes (← Read.take w.bytes))
  | .signed w => do return .signed (Word.intOfBytes (← Read.take w.bytes))
  | .single => do
    return .float (Binary64.widen (UInt32.ofNat (Word.natOfBytes (← Read.take 4))))
  | .double => do return .float ⟨UInt64.ofNat (Word.natOfBytes (← Read.take 8))⟩
  | .string => parseString
  | .bytes => do return .bytes (← Read.prefixed)
  | .publicKey => do return .bytes (← Read.take 32)

mutual

def parseWith (named : String → Read Tree) : Layout → Read Tree
  | .primitive p => parsePrimitive p
  | .vec item => do
    return .list (← Read.repeated (parseWith named item) (← Read.length))
  | .array item length => do
    return .list (← Read.repeated (parseWith named item) length)
  | .option item => do
    if ← parseFlag .invalidOptionFlag then return .option (some (← parseWith named item))
    else return .option none
  | .hashMap key value => do
    let entry : Read (Tree × Tree) := do
      let first ← parseWith named key
      return (first, ← parseWith named value)
    return .map (← Read.repeated entry (← Read.length))
  | .struct fields => do return .record (← parseFields named fields)
  | .enum variants => do
    let tag ← Read.byte
    match parseVariant named variants tag.toNat with
    | some payload => payload
    | none => Read.fail (.invalidEnumTag ("|".intercalate (Record.keys variants)) tag)
  | .defined name => named name
termination_by structural layout => layout

def parseFields (named : String → Read Tree) : List (String × Layout) → Read (List (String × Tree))
  | [] => pure []
  | (key, layout) :: rest => do
    let tree ← parseWith named layout
    return (key, tree) :: (← parseFields named rest)
termination_by structural fields => fields

def parseVariant (named : String → Read Tree) : List (String × Layout) → Nat → Option (Read Tree)
  | [], _ => none
  | (key, layout) :: _, 0 => some do return .variant key (← parseWith named layout)
  | _ :: rest, position + 1 => parseVariant named rest position
termination_by structural variants => variants

end

def parseWithin (registry : Registry) : Nat → Layout → Read Tree
  | 0 => parseWith fun _ => Read.fail (.depthLimit maxDepth)
  | budget + 1 => parseWith fun name =>
    match Record.get? registry name with
    | some layout => parseWithin registry budget layout
    | none => Read.fail (.unknownLayout name)

end Codec

namespace Layout

def parseFrom (layout : Layout) (registry : Registry) : Read Tree :=
  Codec.parseWithin registry maxDepth layout

def parse (layout : Layout) (registry : Registry) (bytes : List UInt8) : Except CodecError Tree :=
  match layout.parseFrom registry (.ofBytes bytes) with
  | (.error error, _) => .error error
  | (.ok tree, reader) =>
    if reader.remaining = 0 then .ok tree else .error (.trailingBytes reader.remaining)

end Layout

end WireSchema
