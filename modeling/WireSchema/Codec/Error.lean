import WireSchema.Bytes.Hex

/-! What can go wrong between trees and bytes. -/

namespace WireSchema

inductive CodecError where
  | outOfBounds
  | invalidUtf8
  | invalidBool (byte : UInt8)
  | invalidOptionFlag (byte : UInt8)
  | invalidEnumTag (enumName : String) (tag : UInt8)
  | lengthTooLarge (length : Nat)
  | trailingBytes (count : Nat)
  | integerOutOfRange (layout : String) (value : Int)
  | shape (expected found : String)
  | unknownLayout (name : String)
  | depthLimit (depth : Nat)
  deriving DecidableEq, Repr

def CodecError.message : CodecError → String
  | .outOfBounds => "buffer too short"
  | .invalidUtf8 => "invalid utf-8"
  | .invalidBool byte => "invalid bool byte 0x" ++ Hex.encode [byte]
  | .invalidOptionFlag byte => "invalid option flag 0x" ++ Hex.encode [byte]
  | .invalidEnumTag enumName tag => s!"enum `{enumName}` has no variant with tag {tag}"
  | .lengthTooLarge length => s!"length {length} does not fit a u32 prefix"
  | .trailingBytes count => s!"{count} trailing bytes after value"
  | .integerOutOfRange layout value => s!"value {value} out of range for {layout}"
  | .shape expected found => s!"encodable shape mismatch: layout expects {expected}, found {found}"
  | .unknownLayout name => s!"layout registry has no type `{name}`"
  | .depthLimit depth => s!"nesting deeper than {depth} levels"

end WireSchema
