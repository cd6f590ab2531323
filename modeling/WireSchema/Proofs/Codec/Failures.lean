import WireSchema.Codec.Parse

/-! What reads fail with. A read fails as one of its parts does, and so the faults of the smallest
reads are all there are. -/

namespace WireSchema

/-- Faults of bytes: there are too few or too many, some stand for nothing, or names lead too
deep. The others are faults of layouts and of trees. -/
def CodecError.isOfBytes : CodecError → Bool
  | outOfBounds | invalidUtf8 | invalidBool _ | invalidOptionFlag _ | invalidEnumTag _ _
  | trailingBytes _ => true
  | depthLimit depth => depth == maxDepth
  | lengthTooLarge _ | integerOutOfRange _ _ | shape _ _ | unknownLayout _ => false

namespace Read

def FailsOnBytes (read : Read α) : Prop :=
  ∀ reader error after, read reader = (.error error, after) → error.isOfBytes = true

theorem failsOnBytes_pure (value : α) : (pure value : Read α).FailsOnBytes := by
  rintro reader error after ⟨⟩

theorem failsOnBytes_fail {error : CodecError} (ofBytes : error.isOfBytes = true) :
    (fail error : Read α).FailsOnBytes := by
  rintro reader _ _ ⟨⟩
  exact ofBytes

theorem FailsOnBytes.bind {first : Read α} {next : α → Read β} (head : first.FailsOnBytes)
    (tail : ∀ value, (next value).FailsOnBytes) : (first >>= next).FailsOnBytes := by
  intro reader error after failed
  rcases began : first reader with ⟨result, middle⟩
  cases result with
  | error fault =>
    rw [bind_error next began] at failed
    cases failed
    exact head reader error after began
  | ok value =>
    rw [bind_ok next began] at failed
    exact tail value middle error after failed

theorem FailsOnBytes.map {read : Read α} (f : α → β) (fails : read.FailsOnBytes) :
    (read >>= fun value => pure (f value)).FailsOnBytes :=
  fails.bind fun value => failsOnBytes_pure (f value)

theorem failsOnBytes_take (count : Nat) : (take count).FailsOnBytes := by
  intro reader error after failed
  unfold take at failed
  split at failed
  next => cases failed
  next =>
    cases failed
    rfl

theorem failsOnBytes_byte : Read.byte.FailsOnBytes :=
  (failsOnBytes_take 1).map fun bytes : List UInt8 => bytes.headD 0

theorem failsOnBytes_length : length.FailsOnBytes :=
  (failsOnBytes_take 4).map Word.natOfBytes

theorem failsOnBytes_prefixed : prefixed.FailsOnBytes :=
  failsOnBytes_length.bind failsOnBytes_take

theorem FailsOnBytes.repeated {read : Read α} (fails : read.FailsOnBytes) (count : Nat) :
    (read.repeated count).FailsOnBytes := by
  induction count with
  | zero => exact failsOnBytes_pure []
  | succ count ih => exact fails.bind fun value => ih.map fun values => value :: values

end Read

namespace Codec

theorem failsOnBytes_parseFlag {invalid : UInt8 → CodecError}
    (ofBytes : ∀ byte, (invalid byte).isOfBytes = true) : (parseFlag invalid).FailsOnBytes := by
  apply Read.failsOnBytes_byte.bind
  intro byte
  split
  next => exact Read.failsOnBytes_pure false
  next => exact Read.failsOnBytes_pure true
  next => exact Read.failsOnBytes_fail (ofBytes _)

theorem failsOnBytes_parsePrimitive (p : Primitive) : (parsePrimitive p).FailsOnBytes := by
  cases p with
  | bool => exact (failsOnBytes_parseFlag fun _ => rfl).map Tree.bool
  | unsigned width => exact (Read.failsOnBytes_take width.bytes).map _
  | signed width => exact (Read.failsOnBytes_take width.bytes).map _
  | single => exact (Read.failsOnBytes_take 4).map _
  | double => exact (Read.failsOnBytes_take 8).map _
  | string =>
    apply Read.failsOnBytes_prefixed.bind
    intro content
    split
    next text _ => exact Read.failsOnBytes_pure (Tree.string text)
    next => exact Read.failsOnBytes_fail rfl
  | bytes => exact Read.failsOnBytes_prefixed.map Tree.bytes
  | publicKey => exact (Read.failsOnBytes_take 32).map Tree.bytes

end Codec

end WireSchema
