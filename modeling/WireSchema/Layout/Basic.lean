import WireSchema.Record
import WireSchema.Schema.Basic

/-! Binary layouts. Named types stand by name and are looked up in a registry when bytes are
written or read, which keeps every layout finite. -/

namespace WireSchema

inductive Layout where
  | primitive (primitive : Primitive)
  | vec (item : Layout)
  | array (item : Layout) (length : Nat)
  | option (item : Layout)
  | hashMap (key value : Layout)
  /-- A record of keyed parts, in order; also the payload of every variant. -/
  | struct (fields : List (String × Layout))
  /-- One byte with the position of a variant, then its payload. -/
  | enum (variants : List (String × Layout))
  | defined (name : String)
  deriving Repr

abbrev Registry := Record Layout

namespace Layout

def name : Layout → String
  | primitive p => p.name
  | vec _ => "vec"
  | array _ _ => "array"
  | option _ => "option"
  | hashMap _ _ => "hashMap"
  | struct _ => "struct"
  | enum _ => "enum"
  | defined _ => "defined"

def unit : Layout := struct []

end Layout

end WireSchema
