import WireSchema.Codec.Tree
import WireSchema.Convert.Error
import WireSchema.PublicKey
import WireSchema.Schema.Basic
import WireSchema.Text.Numeral
import WireSchema.Text.Quoted

/-! Typed access to trees, and the small conversions that emitted source calls by name. -/

namespace WireSchema

namespace Tree

def expected (what : String) (tree : Tree) : Convert α :=
  Convert.mismatch "" what tree.kindName

def toBool : Tree → Convert Bool
  | bool b => .ok b
  | tree => tree.expected "bool"

def toUnsigned (w : Width) : Tree → Convert Nat
  | unsigned n =>
    if w.containsNat n then .ok n
    else Convert.mismatch "" (Primitive.unsigned w).name (toString n)
  | tree => tree.expected (Primitive.unsigned w).name

def toSigned (w : Width) : Tree → Convert Int
  | signed i =>
    if w.containsInt i then .ok i
    else Convert.mismatch "" (Primitive.signed w).name (toString i)
  | tree => tree.expected (Primitive.signed w).name

def toDouble : Tree → Convert Binary64
  | float x => .ok x
  | tree => tree.expected "float"

def toSingle (tree : Tree) : Convert Binary64 :=
  tree.toDouble.map Binary64.toSingle

def toText : Tree → Convert String
  | string s => .ok s
  | tree => tree.expected "string"

def toBytes : Tree → Convert (List UInt8)
  | bytes b => .ok b
  | tree => tree.expected "bytes"

def toPublicKey : Tree → Convert PublicKey
  | bytes b =>
    match PublicKey.ofBytes b with
    | .ok key => .ok key
    | .error error => Convert.mismatch "" "32-byte public key" error.message
  | tree => tree.expected "public key bytes"

def toList : Tree → Convert (List Tree)
  | list items => .ok items
  | tree => tree.expected "list"

def toOption : Tree → Convert (Option Tree)
  | option item => .ok item
  | tree => tree.expected "option"

def toMap : Tree → Convert (List (Tree × Tree))
  | map entries => .ok entries
  | tree => tree.expected "map"

def toRecord : Tree → Convert (Record Tree)
  | record fields => .ok fields
  | tree => tree.expected "record"

def field (tree : Tree) (name : String) : Convert Tree := do
  match Record.get? (← tree.toRecord) name with
  | some value => return value
  | none => Convert.mismatch "" s!"field `{name}`" "nothing"

def fieldWith (tree : Tree) (name : String) (convert : Tree → Convert α) : Convert α :=
  Convert.within name do convert (← tree.field name)

def variant? (tree : Tree) (kind : String) : Option Tree :=
  match tree with
  | record fields => Record.get? fields kind
  | _ => none

/-- A value of an enum is a record with one key. -/
def checkSingleVariant (tree : Tree) (enumName : String) : Convert Unit :=
  match tree with
  | record [_] => .ok ()
  | record fields =>
    .error (.invalidEnum enumName s!"expected exactly one variant key, found {fields.length}")
  | tree =>
    .error (.invalidEnum enumName ("expected a single-key record, found " ++ tree.kindName))

def noVariantMatched (tree : Tree) (enumName : String) : ConvertError :=
  let keys := match tree with
    | record fields => ", ".intercalate (Record.keys fields)
    | tree => tree.kindName
  .invalidEnum enumName s!"no variant named `{keys}`"

end Tree

namespace Convert

def notNumeral (text : String) : Convert α :=
  mismatch "" "decimal integer string" (Quoted.quote text)

def readNumeral (scan : String → Option α) (fits : α → Bool) (text : String) : Convert α :=
  match scan text with
  | some n => if fits n then .ok n else notNumeral text
  | none => notNumeral text

def readUnsigned (w : Width) : String → Convert Nat :=
  readNumeral Numeral.natural? w.containsNat

def readSigned (w : Width) : String → Convert Int :=
  readNumeral Numeral.integer? w.containsInt

def readPublicKey (text : String) : Convert PublicKey :=
  match PublicKey.ofText text with
  | .ok key => .ok key
  | .error error =>
    mismatch "" "base58 public key" (Quoted.quote text ++ " (" ++ error.message ++ ")")

def exactly (length : Nat) (items : List α) : Convert (List α) :=
  if items.length = length then .ok items
  else mismatch "" s!"array of {length}" s!"{items.length} elements"

end Convert

end WireSchema
