import WireSchema.Codec.Tree
import WireSchema.Codec.Writer
import WireSchema.Layout.Basic
import WireSchema.Text.Quoted

/-! Writing trees under a layout. Names are followed up to a depth, which anonymous parts do
not count towards. -/

namespace WireSchema

/-- How many named types may stand inside one another. -/
def maxDepth : Nat := 64

namespace Codec

def mismatch (expected : String) (tree : Tree) : Emission :=
  .fail (.shape expected tree.kindName)

/-- An integer of either kind, if it is in the range of the width. -/
def encodeUnsigned (layout : String) (width : Width) (value : Int) : Emission :=
  if 0 ≤ value ∧ width.containsNat value.toNat then
    .ofBytes (Word.bytesOfNat width.bytes value.toNat)
  else .fail (.integerOutOfRange layout value)

def encodeSigned (layout : String) (width : Width) (value : Int) : Emission :=
  if width.containsInt value then .ofBytes (Word.bytesOfInt width.bytes value)
  else .fail (.integerOutOfRange layout value)

def encodePrimitive (p : Primitive) (tree : Tree) : Emission :=
  match p, tree with
  | .bool, .bool b => .ofBytes [if b then 1 else 0]
  | .unsigned w, .unsigned n => encodeUnsigned p.name w n
  | .unsigned w, .signed i => encodeUnsigned p.name w i
  | .signed w, .unsigned n => encodeSigned p.name w n
  | .signed w, .signed i => encodeSigned p.name w i
  | .single, .float x => .ofBytes (Word.bytesOfNat 4 x.narrow.toNat)
  | .double, .float x => .ofBytes (Word.bytesOfNat 8 x.bits.toNat)
  | .string, .string s => .prefixed s.toUTF8.data.toList
  | .bytes, .bytes b => .prefixed b
  | .publicKey, .bytes b =>
    if b.length = 32 then .ofBytes b
    else .fail (.shape "32-byte public key" s!"{b.length} bytes")
  | p, tree => mismatch p.name tree

def encodeTag (position : Nat) : Emission :=
  if position < 256 then .ofBytes [UInt8.ofNat position]
  else .fail (.integerOutOfRange "enum" position)

mutual

/-- Writes a tree, leaving named types to `named`. -/
def encodeWith (named : String → Tree → Emission) : Layout → Tree → Emission
  | .primitive p, tree => encodePrimitive p tree
  | .vec item, tree =>
    match tree with
    | .list items =>
      (Emission.length items.length).andThen (.sequence (items.map (encodeWith named item)))
    | tree => mismatch "vec" tree
  | .array item length, tree =>
    match tree with
    | .list items =>
      if items.length = length then .sequence (items.map (encodeWith named item))
      else .fail (.shape s!"array of {length}" s!"list of {items.length}")
    | tree => mismatch "array" tree
  | .option item, tree =>
    match tree with
    | .option none => .ofBytes [0]
    | .option (some tree) => (Emission.ofBytes [1]).andThen (encodeWith named item tree)
    | tree => mismatch "option" tree
  | .hashMap key value, tree =>
    match tree with
    | .map entries =>
      (Emission.length entries.length).andThen (.sequence (entries.map fun entry =>
        (encodeWith named key entry.1).andThen (encodeWith named value entry.2)))
    | tree => mismatch "hashMap" tree
  | .struct fields, tree =>
    match tree with
    | .record record => encodeFields named fields record
    | tree => mismatch "struct" tree
  | .enum variants, tree =>
    match tree with
    | .record [(kind, payload)] =>
      match encodeVariant named variants 0 kind payload with
      | some emission => emission
      | none =>
        .fail (.shape ("one of " ++ Quoted.quoteList (Record.keys variants)) s!"variant `{kind}`")
    | tree => mismatch "single-variant record" tree
  | .defined name, tree => named name tree
termination_by structural layout => layout

def encodeFields (named : String → Tree → Emission) :
    List (String × Layout) → Record Tree → Emission
  | [], _ => .ofBytes []
  | (key, layout) :: rest, record =>
    match Record.get? record key with
    | some tree => (encodeWith named layout tree).andThen (encodeFields named rest record)
    | none => .fail (.shape s!"field `{key}`" "nothing")
termination_by structural fields => fields

/-- Writes the variant of a kind, with its position counted from that of the first one. -/
def encodeVariant (named : String → Tree → Emission) : List (String × Layout) → Nat → String →
    Tree → Option Emission
  | [], _, _, _ => none
  | (key, layout) :: rest, position, kind, payload =>
    if key = kind then some ((encodeTag position).andThen (encodeWith named layout payload))
    else encodeVariant named rest (position + 1) kind payload
termination_by structural variants => variants

end

/-- Follows at most `budget` names one after another. -/
def encodeWithin (registry : Registry) : Nat → Layout → Tree → Emission
  | 0 => encodeWith fun _ _ => .fail (.depthLimit maxDepth)
  | budget + 1 => encodeWith fun name tree =>
    match Record.get? registry name with
    | some layout => encodeWithin registry budget layout tree
    | none => .fail (.unknownLayout name)

end Codec

namespace Layout

def emit (layout : Layout) (registry : Registry) (tree : Tree) : Emission :=
  Codec.encodeWithin registry maxDepth layout tree

def encode (layout : Layout) (registry : Registry) (tree : Tree) : Except CodecError (List UInt8) :=
  (layout.emit registry tree).toExcept

end Layout

end WireSchema
