import WireSchema.Proofs.Bytes.Word
import WireSchema.Proofs.Convert.Parts

/-! The Borsh encoding of a value at a type. It is read off the value and the declarations alone,
in one pass, without layouts, trees and registries. -/

namespace WireSchema

def littleEndian (width n : Nat) : List UInt8 :=
  (List.range width).map fun place => UInt8.ofNat (n / 256 ^ place)

theorem bytesOfNat_eq (width n : Nat) : Word.bytesOfNat width n = littleEndian width n := by
  induction width generalizing n with
  | zero => rfl
  | succ width ih =>
    have higher : littleEndian width (n / 256) =
        (List.range width).map fun place => UInt8.ofNat (n / 256 ^ (place + 1)) := by
      refine List.map_congr_left fun place _ => ?_
      rw [Nat.div_div_eq_div_mul, Nat.pow_succ, Nat.mul_comm]
    rw [Word.bytesOfNat, ih, higher, littleEndian, List.range_succ_eq_map, List.map_cons,
      List.map_map, Nat.pow_zero, Nat.div_one]
    rfl

def twosComplement (width : Nat) (i : Int) : List UInt8 :=
  littleEndian width (if i < 0 then i + (256 ^ width : Nat) else i).toNat

theorem bytesOfInt_eq {width : Width} {i : Int} (bound : width.containsInt i = true) :
    Word.bytesOfInt width.bytes i = twosComplement width.bytes i := by
  obtain ⟨lower, upper⟩ := (width.containsInt_iff i).1 bound
  have even := Word.half_range width.bytes_pos
  have residue : i % (256 ^ width.bytes : Nat) =
      if i < 0 then i + (256 ^ width.bytes : Nat) else i := by
    split
    next negative =>
      rw [← Int.add_emod_right]
      exact Int.emod_eq_of_lt (by omega) (by omega)
    next => exact Int.emod_eq_of_lt (by omega) (by omega)
  rw [Word.bytesOfInt, residue, bytesOfNat_eq, twosComplement]

namespace TypedValue

def head (table : Table) : TypedValue → List UInt8
  | ⟨.bool b, .primitive .bool⟩ => [if b then 1 else 0]
  | ⟨.unsigned n, .primitive (.unsigned width)⟩ => littleEndian width.bytes n
  | ⟨.signed i, .primitive (.signed width)⟩ => twosComplement width.bytes i
  | ⟨.float x, .primitive .single⟩ => littleEndian 4 x.narrow.toNat
  | ⟨.float x, .primitive .double⟩ => littleEndian 8 x.bits.toNat
  | ⟨.string s, .primitive .string⟩ => littleEndian 4 s.toUTF8.size ++ s.toUTF8.data.toList
  | ⟨.bytes b, .primitive .bytes⟩ => littleEndian 4 b.length ++ b
  | ⟨.publicKey key, .primitive .publicKey⟩ => key.bytes
  | ⟨.list items, .vec _⟩ => littleEndian 4 items.length
  | ⟨.option none, .option _⟩ => [0]
  | ⟨.option (some _), .option _⟩ => [1]
  | ⟨.map entries, .hashMap _ _⟩ => littleEndian 4 entries.length
  | ⟨.enum _ kind _ _, .defined name⟩ =>
    match table.body? name with
    | some (.enum variants) =>
      match variants.findIdx? fun variant => variant.name = kind with
      | some position => [UInt8.ofNat position]
      | none => []
    | _ => []
  | _ => []

theorem head_enum {table : Table} {name kind : String} {variants : List Variant} {tag : UInt8}
    (known : table.body? name = some (.enum variants))
    (position : variants.findIdx? (fun variant => variant.name = kind) = some tag.toNat)
    (payload : Payload Value) :
    head table ⟨.enum name kind tag payload, .defined name⟩ = [tag] := by
  simp only [head, known, position, UInt8.ofNat_toNat]

/-- Arrays, structs and payloads are their parts and nothing else. -/
def borsh (table : Table) (whole : TypedValue) : List UInt8 :=
  whole.head table ++ (whole.parts table).attach.flatMap fun part => borsh table part.1
termination_by sizeOf whole.value
decreasing_by exact sizeOf_lt_of_mem_parts part.2

theorem borsh_eq (table : Table) (whole : TypedValue) :
    whole.borsh table = whole.head table ++ (whole.parts table).flatMap (borsh table) := by
  rw [borsh, List.flatMap_subtype fun part _ => rfl, List.unattach_attach]

end TypedValue

end WireSchema
