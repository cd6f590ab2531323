import WireSchema.Bytes.Word
import WireSchema.Codec.Error

/-! Writing. What a step writes does not depend on what was written before, and a step that
fails leaves the bytes it wrote up to there. -/

namespace WireSchema

/-- The bytes of a step, and the fault that ended it, if any. -/
structure Emission where
  bytes : List UInt8
  fault : Option CodecError
  deriving DecidableEq, Repr

namespace Emission

def ofBytes (bytes : List UInt8) : Emission := ⟨bytes, none⟩

def fail (error : CodecError) : Emission := ⟨[], some error⟩

def andThen (first second : Emission) : Emission :=
  match first.fault with
  | none => ⟨first.bytes ++ second.bytes, second.fault⟩
  | some _ => first

def sequence (steps : List Emission) : Emission :=
  steps.foldr andThen (ofBytes [])

def toExcept (emission : Emission) : Except CodecError (List UInt8) :=
  match emission.fault with
  | none => .ok emission.bytes
  | some error => .error error

def length (n : Nat) : Emission :=
  if n < 2 ^ (32 : Nat) then ofBytes (Word.bytesOfNat 4 n) else fail (.lengthTooLarge n)

def prefixed (bytes : List UInt8) : Emission :=
  (length bytes.length).andThen (ofBytes bytes)

@[simp] theorem ofBytes_andThen (bytes : List UInt8) (second : Emission) :
    (ofBytes bytes).andThen second = ⟨bytes ++ second.bytes, second.fault⟩ := rfl

@[simp] theorem fail_andThen (error : CodecError) (second : Emission) :
    (fail error).andThen second = fail error := rfl

end Emission

structure Writer where
  buffer : List UInt8
  deriving DecidableEq, Repr

namespace Writer

def empty : Writer := ⟨[]⟩

def write (writer : Writer) (emission : Emission) : Except CodecError Unit × Writer :=
  (emission.toExcept.map fun _ => (), ⟨writer.buffer ++ emission.bytes⟩)

end Writer

end WireSchema
