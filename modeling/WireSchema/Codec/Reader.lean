import WireSchema.Bytes.Word
import WireSchema.Codec.Error

/-! Reading. A reader stands between the bytes it has passed and those that remain; a read
that fails leaves it where the last step inside it ended. -/

namespace WireSchema

structure Reader where
  position : Nat
  rest : List UInt8
  deriving DecidableEq, Repr

namespace Reader

def ofBytes (bytes : List UInt8) : Reader := ⟨0, bytes⟩

def remaining (reader : Reader) : Nat := reader.rest.length

end Reader

def Read (α : Type) := Reader → Except CodecError α × Reader

namespace Read

instance : Monad Read where
  pure value := fun reader => (.ok value, reader)
  bind first next := fun reader =>
    match first reader with
    | (.ok value, reader) => next value reader
    | (.error error, reader) => (.error error, reader)

def fail (error : CodecError) : Read α :=
  fun reader => (.error error, reader)

def take (count : Nat) : Read (List UInt8) := fun reader =>
  if count ≤ reader.rest.length then
    (.ok (reader.rest.take count), ⟨reader.position + count, reader.rest.drop count⟩)
  else (.error .outOfBounds, reader)

def byte : Read UInt8 := do
  return (← take 1).headD 0

def length : Read Nat := do
  return Word.natOfBytes (← take 4)

def prefixed : Read (List UInt8) := do
  take (← length)

def repeated (read : Read α) : Nat → Read (List α)
  | 0 => pure []
  | count + 1 => do
    let item ← read
    return item :: (← repeated read count)

theorem bind_ok {first : Read α} {reader reader' : Reader} {value : α} (next : α → Read β)
    (found : first reader = (.ok value, reader')) :
    (first >>= next) reader = next value reader' := by
  simp [bind, found]

theorem bind_error {first : Read α} {reader reader' : Reader} {error : CodecError}
    (next : α → Read β) (failed : first reader = (.error error, reader')) :
    (first >>= next) reader = (.error error, reader') := by
  simp [bind, failed]

instance : LawfulMonad Read := LawfulMonad.mk' Read
  (by
    intro α read
    funext reader
    show (match read reader with
      | (.ok value, reader) => (.ok value, reader)
      | (.error error, reader) => (.error error, reader)) = read reader
    split <;> simp_all)
  (by intros; rfl)
  (by
    intro α β γ read f g
    funext reader
    simp only [bind]
    rcases read reader with ⟨_ | _, _⟩ <;> rfl)

theorem take_append (bytes rest : List UInt8) (position : Nat) :
    take bytes.length ⟨position, bytes ++ rest⟩ = (.ok bytes, ⟨position + bytes.length, rest⟩) := by
  simp [take]

end Read

end WireSchema
