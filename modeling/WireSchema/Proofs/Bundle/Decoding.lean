import WireSchema.Proofs.Bundle
import WireSchema.Proofs.Codec.Failures
import WireSchema.Proofs.Schema.References

/-! Decoding bytes of any content. What is read under the layout of a type is a tree of a value of
that type, and reading fails on the bytes alone, as every reference of a catalog has a layout. -/

namespace WireSchema

open Outcome

namespace Codec

section

variable {read : String → Read Tree}

theorem failsOnBytes_type {type : FieldType}
    (hop : ∀ name ∈ type.references, (read name).FailsOnBytes) :
    (parseWith read type.layout).FailsOnBytes := by
  induction type with
  | primitive p => exact failsOnBytes_parsePrimitive p
  | vec item ih => exact Read.failsOnBytes_length.bind fun count => ((ih hop).repeated count).map _
  | option item ih =>
    apply (failsOnBytes_parseFlag fun _ => rfl).bind
    intro flag
    cases flag with
    | false => exact Read.failsOnBytes_pure _
    | true => exact (ih hop).map _
  | array item length ih => exact ((ih hop).repeated length).map _
  | hashMap key item keyIh itemIh =>
    have keyFails := keyIh fun name member => hop name (List.mem_append_left _ member)
    have itemFails := itemIh fun name member => hop name (List.mem_append_right _ member)
    refine Read.failsOnBytes_length.bind fun count => Read.FailsOnBytes.map Tree.map ?_
    exact (keyFails.bind fun first => itemFails.map fun second => (first, second)).repeated count
  | defined name => exact hop name List.mem_cons_self

theorem failsOnBytes_members {declared : List Field}
    (hop : ∀ field ∈ declared, ∀ name ∈ field.type.references, (read name).FailsOnBytes) :
    (parseFields read (declared.map Field.layout)).FailsOnBytes := by
  induction declared with
  | nil => exact Read.failsOnBytes_pure []
  | cons field rest ih =>
    obtain ⟨here, below⟩ := List.forall_mem_cons.1 hop
    apply (failsOnBytes_type here).bind
    intro tree
    exact (ih below).map fun entries => (field.name, tree) :: entries

theorem failsOnBytes_body {body : TypeBody}
    (hop : ∀ name ∈ body.references, (read name).FailsOnBytes) :
    (parseWith read body.layout).FailsOnBytes := by
  cases body with
  | struct declared =>
    refine Read.FailsOnBytes.map Tree.record (failsOnBytes_members fun field member => ?_)
    exact fun name mentioned => hop name (TypeBody.mem_references_struct member mentioned)
  | enum variants =>
    apply Read.failsOnBytes_byte.bind
    intro tag
    split
    next payloadRead found =>
      rw [Value.parseVariant_eq, List.getElem?_map, Option.map_map, Option.map_eq_some_iff] at found
      obtain ⟨variant, here, rfl⟩ := found
      apply Read.FailsOnBytes.map (Tree.variant variant.name)
      refine Read.FailsOnBytes.map Tree.record (failsOnBytes_members fun field member => ?_)
      exact fun name mentioned =>
        hop name (TypeBody.mem_references_enum (List.mem_of_getElem? here) member mentioned)
    next => exact Read.failsOnBytes_fail rfl

end

/-- Each hop leads to a definition, whose references are declared again. -/
theorem failsOnBytes_name {table : Table} (closed : table.IsClosed) (budget : Nat) {name : String}
    (declared : name ∈ table.names) :
    (parseWithin (table.types.map TypeDef.layout) budget (.defined name)).FailsOnBytes := by
  induction budget generalizing name with
  | zero => exact Read.failsOnBytes_fail rfl
  | succ budget ih =>
    obtain ⟨type, found⟩ := Table.exists_of_mem_names declared
    rw [Value.parseWithin_defined, get?_layouts, found]
    simp only [Option.map_some]
    rw [Value.parseWithin_eq]
    exact failsOnBytes_body fun target mentioned =>
      ih (closed type (Table.find?_eq_some found).1 target mentioned)

end Codec

namespace Bundle

variable {bundle : Bundle}

theorem Sound.isOfBytes_of_parse (sound : bundle.Sound) (closed : bundle.table.IsClosed)
    {bytes : List UInt8} {error : CodecError}
    (failed : bundle.layout.parse bundle.registry bytes = .error error) :
    error.isOfBytes = true := by
  obtain ⟨type, found, body⟩ := Option.map_eq_some_iff.1 sound.known
  have references := closed type (Table.find?_eq_some found).1
  rw [body] at references
  have fails : (bundle.layout.parseFrom bundle.registry).FailsOnBytes := by
    rw [Layout.parseFrom, sound.registry, sound.layout, Value.parseWithin_eq]
    exact Codec.failsOnBytes_body fun name mentioned =>
      Codec.failsOnBytes_name closed maxDepth (references name mentioned)
  rw [Layout.parse] at failed
  split at failed
  next fault after read =>
    cases failed
    exact fails _ _ _ read
  next tree after read =>
    split at failed
    next => cases failed
    next =>
      cases failed
      rfl

theorem Sound.value_of_parse (sound : bundle.Sound) {bytes : List UInt8} {tree : Tree}
    (parsed : bundle.layout.parse bundle.registry bytes = .ok tree) :
    ∃ value, bundle.valueOfTree tree = .ok value ∧ bundle.treeOfValue value = .ok tree := by
  obtain ⟨value, has, made⟩ := sound.decodes_of_parse parsed
  exact ⟨value, made bundle.name, Value.toTree_eq_ok.2 has⟩

theorem Sound.isOfBytes_of_decode (sound : bundle.Sound) (closed : bundle.table.IsClosed)
    {bytes : List UInt8} {error : TransferError} (failed : bundle.decode bytes = .error error) :
    ∃ fault : CodecError, error = .codec fault ∧ fault.isOfBytes = true := by
  rw [decode] at failed
  cases parsed : bundle.layout.parse bundle.registry bytes with
  | error fault =>
    rw [parsed] at failed
    cases failed
    exact ⟨fault, rfl, sound.isOfBytes_of_parse closed parsed⟩
  | ok tree =>
    obtain ⟨value, made, -⟩ := sound.value_of_parse parsed
    rw [parsed] at failed
    simp only [Except.mapError, bind, Except.bind, made] at failed
    cases failed

end Bundle

namespace Catalog

variable {idl : Idl} {catalog : Catalog}

theorem isClosed_of_ofIdl (accepted : ofIdl idl = .ok catalog) : catalog.table.IsClosed := by
  obtain ⟨table, tableMade, rest⟩ := bind_eq_ok.1 accepted
  obtain ⟨registry, -, done⟩ := bind_eq_ok.1 (then_eq_ok.1 rest).2
  rw [← pure_eq_ok.1 done]
  exact Table.isClosed_of_ofTypes tableMade

theorem table_of_bundle {name : String} {bundle : Bundle}
    (made : catalog.bundle name = .ok bundle) : bundle.table = catalog.table := by
  obtain ⟨type, -, rest⟩ := bind_eq_ok.1 made
  obtain ⟨layout, -, done⟩ := bind_eq_ok.1 rest
  rw [← pure_eq_ok.1 done]

/-- What is read is the tree of a value of the type, and the conversion gives that value. All other
bytes fail for what they are, never for the layouts or for the conversion. -/
theorem decode_type_sound (accepted : ofIdl idl = .ok catalog) {type : TypeDef}
    (member : type ∈ idl.types) :
    ∃ bundle, catalog.bundle type.name = .ok bundle ∧
      (∀ bytes tree, bundle.layout.parse bundle.registry bytes = .ok tree →
        ∃ value, bundle.valueOfTree tree = .ok value ∧ bundle.treeOfValue value = .ok tree) ∧
      (∀ bytes error, bundle.layout.parse bundle.registry bytes = .error error →
        error.isOfBytes = true) ∧
      ∀ bytes error, bundle.decode bytes = .error error →
        ∃ fault : CodecError, error = .codec fault ∧ fault.isOfBytes = true := by
  obtain ⟨bundle, made, sound⟩ := exists_bundle accepted member
  have closed : bundle.table.IsClosed := table_of_bundle made ▸ isClosed_of_ofIdl accepted
  exact ⟨bundle, made, fun _ _ => sound.value_of_parse, fun _ _ => sound.isOfBytes_of_parse closed,
    fun _ _ => sound.isOfBytes_of_decode closed⟩

/-- One list that ends as it should, and one that ends in a flag that is none. -/
theorem decode_type_sound_chain :
    ∃ bundle, catalogOfChain.bundle "Node" = .ok bundle ∧
      (∃ tree value, bundle.layout.parse bundle.registry [1, 0, 0, 192, 63, 0] = .ok tree ∧
        bundle.valueOfTree tree = .ok value ∧ bundle.treeOfValue value = .ok tree) ∧
      bundle.decode [0, 2] = .error (.codec (.invalidOptionFlag 2)) ∧
      (CodecError.invalidOptionFlag 2).isOfBytes = true := by
  obtain ⟨bundle, made, values, -, faults⟩ :=
    @decode_type_sound chain catalogOfChain rfl _ List.mem_cons_self
  obtain ⟨tree, parsed⟩ :
      ∃ tree, bundle.layout.parse bundle.registry [1, 0, 0, 192, 63, 0] = .ok tree := by
    cases made
    exact ⟨_, rfl⟩
  have failed : bundle.decode [0, 2] = .error (.codec (.invalidOptionFlag 2)) := by
    cases made
    rfl
  obtain ⟨value, valueMade, treeMade⟩ := values _ _ parsed
  obtain ⟨fault, same, ofBytes⟩ := faults _ _ failed
  cases same
  exact ⟨bundle, made, ⟨tree, value, parsed, valueMade, treeMade⟩, failed, ofBytes⟩

end Catalog

end WireSchema
