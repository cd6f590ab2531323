import Mathlib.Data.List.Basic
import WireSchema.Codec.Reader
import WireSchema.Codec.Writer
import WireSchema.Proofs.Bytes.Word

/-! What reads take. A read `Gives` a result at bytes if it ends with it wherever the bytes stand
first. It `Takes` them for a value if the result is the value, and it takes `Only` what meets a
condition if nothing else succeeds. -/

namespace WireSchema

namespace Read

/-- Wherever the bytes stand first, they are passed and nothing after them. -/
def Gives (read : Read α) (bytes : List UInt8) (result : Except CodecError α) : Prop :=
  ∀ position rest, read ⟨position, bytes ++ rest⟩ = (result, ⟨position + bytes.length, rest⟩)

def Takes (read : Read α) (bytes : List UInt8) (value : α) : Prop :=
  ∀ position rest, read ⟨position, bytes ++ rest⟩ = (.ok value, ⟨position + bytes.length, rest⟩)

def Only (read : Read α) (condition : List UInt8 → α → Prop) : Prop :=
  ∀ reader value after, read reader = (.ok value, after) →
    ∃ bytes, reader.rest = bytes ++ after.rest ∧
      after.position = reader.position + bytes.length ∧ condition bytes value

/-! ## Bytes to a value -/

theorem takes_pure (value : α) : (pure value : Read α).Takes [] value := fun _ _ => rfl

theorem Gives.bind {first : Read α} {next : α → Read β} {bytes bytes' : List UInt8} {value : α}
    {result : Except CodecError β} (head : first.Gives bytes (.ok value))
    (tail : (next value).Gives bytes' result) :
    (first >>= next).Gives (bytes ++ bytes') result := by
  intro position rest
  rw [List.append_assoc, bind_ok next (head position (bytes' ++ rest)),
    tail (position + bytes.length) rest, List.length_append, Nat.add_assoc]

theorem Takes.bind {first : Read α} {next : α → Read β} {bytes bytes' : List UInt8} {value : α}
    {value' : β} (head : first.Takes bytes value) (tail : (next value).Takes bytes' value') :
    (first >>= next).Takes (bytes ++ bytes') value' :=
  Gives.bind head tail

theorem Takes.map {read : Read α} {bytes : List UInt8} {value : α} (f : α → β)
    (takes : read.Takes bytes value) :
    (read >>= fun value => pure (f value)).Takes bytes (f value) := by
  have mapped : (read >>= fun value => pure (f value)).Takes (bytes ++ []) (f value) :=
    takes.bind (takes_pure (f value))
  rwa [List.append_nil] at mapped

theorem takes_take {bytes : List UInt8} {count : Nat} (exact : bytes.length = count) :
    (take count).Takes bytes bytes := by
  intro position rest
  rw [← exact, take_append]

theorem takes_byte (byte : UInt8) : Read.byte.Takes [byte] byte :=
  (takes_take (rfl : [byte].length = 1)).map fun bytes : List UInt8 => bytes.headD 0

theorem takes_length {n : Nat} (bound : n < 2 ^ (32 : Nat)) :
    length.Takes (Word.bytesOfNat 4 n) n := by
  have read := (takes_take (Word.length_bytesOfNat 4 n)).map Word.natOfBytes
  rwa [Word.natOfBytes_bytesOfNat_of_lt bound] at read

theorem takes_prefixed {bytes : List UInt8} (bound : bytes.length < 2 ^ (32 : Nat)) :
    prefixed.Takes (Word.bytesOfNat 4 bytes.length ++ bytes) bytes :=
  (takes_length bound).bind (takes_take rfl)

theorem takes_repeated {read : Read α} {parts : List (List UInt8)} {values : List α}
    (items : List.Forall₂ read.Takes parts values) :
    (read.repeated values.length).Takes parts.flatten values := by
  induction items with
  | nil => exact takes_pure []
  | cons head _ ih => exact head.bind (ih.map fun rest => _ :: rest)

/-! ## A value to its bytes -/

theorem only_pure {condition : List UInt8 → α → Prop} {value : α} (met : condition [] value) :
    (pure value : Read α).Only condition := by
  rintro reader _ _ ⟨⟩
  exact ⟨[], rfl, rfl, met⟩

theorem only_fail (error : CodecError) (condition : List UInt8 → α → Prop) :
    (fail error : Read α).Only condition := by
  rintro reader value after ⟨⟩

theorem Only.mono {read : Read α} {condition condition' : List UInt8 → α → Prop}
    (only : read.Only condition)
    (weaker : ∀ bytes value, condition bytes value → condition' bytes value) :
    read.Only condition' := by
  intro reader value after found
  obtain ⟨bytes, split, moved, met⟩ := only reader value after found
  exact ⟨bytes, split, moved, weaker bytes value met⟩

theorem Only.bind {first : Read α} {next : α → Read β} {head : List UInt8 → α → Prop}
    {condition : List UInt8 → β → Prop} (only : first.Only head)
    (tail : ∀ bytes value, head bytes value →
      (next value).Only fun bytes' value' => condition (bytes ++ bytes') value') :
    (first >>= next).Only condition := by
  intro reader value' after found
  rcases began : first reader with ⟨result, middle⟩
  cases result with
  | error error =>
    rw [bind_error next began] at found
    cases found
  | ok value =>
    rw [bind_ok next began] at found
    obtain ⟨bytes, split, moved, met⟩ := only reader value middle began
    obtain ⟨bytes', split', moved', met'⟩ := tail bytes value met middle value' after found
    refine ⟨bytes ++ bytes', ?_, ?_, met'⟩
    · rw [split, split', List.append_assoc]
    · rw [moved', moved, List.length_append, Nat.add_assoc]

theorem Only.map {read : Read α} {condition : List UInt8 → β → Prop} (f : α → β)
    (only : read.Only fun bytes value => condition bytes (f value)) :
    (read >>= fun value => pure (f value)).Only condition :=
  only.bind fun bytes value met => only_pure (by rwa [List.append_nil])

theorem only_take (count : Nat) :
    (take count).Only fun bytes value => value = bytes ∧ bytes.length = count := by
  intro reader value after found
  unfold take at found
  split at found
  next enough =>
    obtain ⟨rfl, rfl⟩ : value = reader.rest.take count ∧
        after = ⟨reader.position + count, reader.rest.drop count⟩ := by
      simpa [eq_comm] using found
    have taken : (reader.rest.take count).length = count := List.length_take_of_le enough
    exact ⟨reader.rest.take count, (List.take_append_drop count reader.rest).symm,
      congrArg _ taken.symm, rfl, taken⟩
  next short => cases found

theorem only_byte : Read.byte.Only fun bytes value => bytes = [value] := by
  apply Only.map (fun bytes : List UInt8 => bytes.headD 0)
  apply (only_take 1).mono
  intro bytes value taken
  obtain ⟨rfl, single⟩ := taken
  obtain ⟨byte, rfl⟩ := List.length_eq_one_iff.1 single
  rfl

/-- Bytes of a word, which are those of the number that they hold. -/
theorem only_word (count : Nat) :
    (take count).Only fun bytes content => content.length = count ∧
      Word.natOfBytes content < 256 ^ count ∧
      bytes = Word.bytesOfNat count (Word.natOfBytes content) := by
  apply (only_take count).mono
  intro bytes content taken
  obtain ⟨rfl, rfl⟩ := taken
  exact ⟨rfl, Word.natOfBytes_lt content, (Word.bytesOfNat_natOfBytes content).symm⟩

theorem only_length :
    length.Only fun bytes value => value < 2 ^ (32 : Nat) ∧ bytes = Word.bytesOfNat 4 value := by
  apply Only.map Word.natOfBytes
  apply (only_word 4).mono
  intro bytes content known
  exact known.2

theorem only_prefixed : prefixed.Only fun bytes value =>
    value.length < 2 ^ (32 : Nat) ∧ bytes = Word.bytesOfNat 4 value.length ++ value := by
  apply only_length.bind
  intro bytes count known
  obtain ⟨bound, rfl⟩ := known
  apply (only_take count).mono
  intro bytes value taken
  obtain ⟨rfl, rfl⟩ := taken
  exact ⟨bound, rfl⟩

theorem only_repeated {read : Read α} {condition : List UInt8 → α → Prop}
    (only : read.Only condition) (count : Nat) :
    (read.repeated count).Only fun bytes values => values.length = count ∧
      ∃ parts, bytes = parts.flatten ∧ List.Forall₂ condition parts values := by
  induction count with
  | zero => exact only_pure ⟨rfl, [], rfl, .nil⟩
  | succ count ih =>
    apply only.bind
    intro bytes value met
    apply Only.map (fun values => value :: values)
    refine ih.mono fun bytes' values rest => ?_
    obtain ⟨sized, parts, rfl, all⟩ := rest
    exact ⟨congrArg Nat.succ sized, bytes :: parts, rfl, .cons met all⟩

end Read

end WireSchema
