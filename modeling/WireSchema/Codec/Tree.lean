import WireSchema.Record
import WireSchema.Floating.Format

/-! Trees: what bytes are read as and written from. A value of an enum is a record with one
key, the name of its variant. -/

namespace WireSchema

inductive Tree where
  | bool (value : Bool)
  | unsigned (value : Nat)
  | signed (value : Int)
  | float (value : Binary64)
  | string (value : String)
  /-- Byte strings and the 32 bytes of public keys. -/
  | bytes (value : List UInt8)
  | list (items : List Tree)
  | option (item : Option Tree)
  | map (entries : List (Tree × Tree))
  | record (fields : List (String × Tree))
  deriving Repr

namespace Tree

def kindName : Tree → String
  | bool _ => "bool"
  | unsigned _ => "unsigned integer"
  | signed _ => "signed integer"
  | float _ => "float"
  | string _ => "string"
  | bytes _ => "bytes"
  | list _ => "list"
  | option _ => "option"
  | map _ => "map"
  | record _ => "record"

def variant (kind : String) (payload : Tree) : Tree :=
  record [(kind, payload)]

end Tree

end WireSchema
