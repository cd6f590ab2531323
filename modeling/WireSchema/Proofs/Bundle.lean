import WireSchema.Bundle
import WireSchema.Proofs.Convert.Decodes
import WireSchema.Proofs.Convert.Identical
import WireSchema.Proofs.Convert.ToTree

/-! Bundles of accepted catalogs. A value that is encoded is decoded again, and bytes that are
decoded are encoded again. -/

namespace WireSchema

open Outcome

namespace Bundle

structure Sound (bundle : Bundle) : Prop where
  names : bundle.table.HasNames
  registry : bundle.registry = bundle.table.types.map TypeDef.layout
  known : bundle.table.body? bundle.name = some bundle.type.body
  layout : bundle.layout = bundle.type.body.layout

theorem encode_eq_ok {bundle : Bundle} {value : Value} {bytes : List UInt8} :
    bundle.encode value = .ok bytes ↔
      ∃ tree, Value.HasTree bundle.table value (.defined bundle.name) tree ∧
        bundle.layout.encode bundle.registry tree = .ok bytes := by
  simp only [encode, bind_eq_ok, mapError_eq_ok, treeOfValue, Value.toTree_eq_ok]

theorem decode_eq_ok {bundle : Bundle} {value : Value} {bytes : List UInt8} :
    bundle.decode bytes = .ok value ↔
      ∃ tree, bundle.layout.parse bundle.registry bytes = .ok tree ∧
        bundle.valueOfTree tree = .ok value := by
  simp only [decode, bind_eq_ok, mapError_eq_ok]

variable {bundle : Bundle}

theorem Sound.hasDistinctKeys (sound : bundle.Sound) :
    bundle.registry.hasDistinctKeys = true ∧ bundle.layout.hasDistinctKeys = true := by
  rw [sound.registry, sound.layout]
  exact ⟨sound.names.layouts_haveDistinctKeys,
    (sound.names.of_body? sound.known).layout_hasDistinctKeys⟩

/-- The name of a bundle counts as one that was followed. -/
theorem Sound.normalForm_eq (sound : bundle.Sound) (tree : Tree) :
    bundle.layout.normalForm bundle.registry tree =
      normalTo bundle.registry (maxDepth + 2) (.defined bundle.name) tree := by
  rw [sound.registry, sound.layout, normalTo_defined maxDepth sound.known, Layout.normalForm]

theorem Sound.decodes_of_parse (sound : bundle.Sound) {bytes : List UInt8} {tree : Tree}
    (parsed : bundle.layout.parse bundle.registry bytes = .ok tree) :
    Value.Decodes bundle.table (.defined bundle.name) tree := by
  obtain ⟨position, read⟩ := Layout.parse_eq_ok.1 parsed
  rw [Layout.parseFrom, sound.registry, sound.layout, Value.parseWithin_eq] at read
  have only := Value.only_decodes_body sound.names
    (Value.only_decodes_name sound.names maxDepth) sound.known
  obtain ⟨_, -, -, decodes⟩ := only _ _ _ read
  exact decodes

theorem Sound.decode_of_encode (sound : bundle.Sound) {value : Value} {bytes : List UInt8}
    (distinct : value.hasDistinctKeys = true) (encoded : bundle.encode value = .ok bytes) :
    ∃ value', bundle.decode bytes = .ok value' ∧ value'.same value = true := by
  obtain ⟨tree, has, written⟩ := encode_eq_ok.1 encoded
  obtain ⟨value', made, alike⟩ :=
    Value.returns_of_hasTree sound.names has distinct (maxDepth + 2) bundle.name
  refine ⟨value', decode_eq_ok.2 ⟨_, Layout.parse_of_encode written, ?_⟩, alike⟩
  rwa [sound.normalForm_eq, sound.registry, valueOfTree]

theorem Sound.encode_of_decode (sound : bundle.Sound) {value : Value} {bytes : List UInt8}
    (canonical : bundle.layout.hasCanonicalNaNs bundle.registry bytes = true)
    (decoded : bundle.decode bytes = .ok value) : bundle.encode value = .ok bytes := by
  obtain ⟨tree, parsed, made⟩ := decode_eq_ok.1 decoded
  obtain ⟨value', has, found⟩ := sound.decodes_of_parse parsed
  obtain rfl : value' = value := Except.ok.inj ((found bundle.name).symm.trans made)
  obtain ⟨registryDistinct, layoutDistinct⟩ := sound.hasDistinctKeys
  exact encode_eq_ok.2 ⟨tree, has, Layout.encode_of_parse registryDistinct layoutDistinct parsed
    (Layout.hasCanonicalNaNs_of_parse canonical parsed)⟩

/-- The order of fields leaves no trace in the bytes. -/
theorem encode_of_identical {value value' : Value} {bytes bytes' : List UInt8}
    (encoded : bundle.encode value = .ok bytes) (encoded' : bundle.encode value' = .ok bytes')
    (alike : value.identical value' = true) : bytes = bytes' := by
  obtain ⟨tree, has, written⟩ := encode_eq_ok.1 encoded
  obtain ⟨tree', has', written'⟩ := encode_eq_ok.1 encoded'
  obtain rfl := Value.tree_of_identical has has' alike
  exact Except.ok.inj (written.symm.trans written')

end Bundle

namespace Catalog

variable {idl : Idl} {catalog : Catalog}

theorem bundle_of_mem (accepted : ofIdl idl = .ok catalog) {type : TypeDef}
    (member : type ∈ idl.types) : catalog.bundle type.name =
      .ok ⟨⟨idl.types⟩, idl.types.map TypeDef.layout, type, type.body.layout⟩ := by
  obtain ⟨rfl, names, bodies⟩ := ofIdl_eq_ok accepted
  have found : Table.get ⟨idl.types⟩ type.name = .ok type := by
    rw [Table.get, names.find?_of_mem member]
  exact bind_eq_ok.2 ⟨type, found, bind_eq_ok.2 ⟨_, bodies type member, rfl⟩⟩

/-- Every declared type has a bundle. -/
theorem exists_bundle (accepted : ofIdl idl = .ok catalog) {type : TypeDef}
    (member : type ∈ idl.types) : ∃ bundle, catalog.bundle type.name = .ok bundle ∧
      bundle.Sound := by
  have made := bundle_of_mem accepted member
  obtain ⟨rfl, names, -⟩ := ofIdl_eq_ok accepted
  have known := congrArg (Option.map TypeDef.body) (names.find?_of_mem member)
  exact ⟨_, made, names, rfl, known, rfl⟩

def chain : Idl :=
  ⟨none, none, [
    ⟨"Node", .struct [⟨"mark", .defined "Mark"⟩, ⟨"next", .option (.defined "Node")⟩]⟩,
    ⟨"Mark", .enum [⟨"Plain", .empty⟩, ⟨"Weighed", .tuple [.primitive .single]⟩]⟩]⟩

def catalogOfChain : Catalog :=
  ⟨⟨chain.types⟩, chain.types.map TypeDef.layout⟩

/-- Whatever a bundle encodes it decodes as the same value. Records of a value are ordered maps,
and so their keys are distinct. -/
theorem decode_encoded (accepted : ofIdl idl = .ok catalog) {type : TypeDef}
    (member : type ∈ idl.types) :
    ∃ bundle, catalog.bundle type.name = .ok bundle ∧ ∀ value bytes,
      value.hasDistinctKeys = true → bundle.encode value = .ok bytes →
        ∃ value', bundle.decode bytes = .ok value' ∧ value'.same value = true := by
  obtain ⟨bundle, made, sound⟩ := exists_bundle accepted member
  exact ⟨bundle, made, fun _ _ => sound.decode_of_encode⟩

theorem decode_encoded_chain :
    ∃ bundle, catalogOfChain.bundle "Node" = .ok bundle ∧
      bundle.encode (.struct "Node" [("next", .option none),
        ("mark", .enum "Mark" "Weighed" 1 (.tuple [.float ⟨0x3ff8000000000000⟩]))]) =
          .ok [1, 0, 0, 192, 63, 0] ∧
      ∃ value, bundle.decode [1, 0, 0, 192, 63, 0] = .ok value ∧
        value.same (.struct "Node" [("next", .option none),
          ("mark", .enum "Mark" "Weighed" 1 (.tuple [.float ⟨0x3ff8000000000000⟩]))]) = true := by
  obtain ⟨bundle, made, round⟩ := @decode_encoded chain catalogOfChain rfl _ List.mem_cons_self
  refine ⟨bundle, made, ?_⟩
  apply (and_iff_left_of_imp fun encoded => round _ _ rfl encoded).2
  cases made
  rfl

/-- Whatever a bundle decodes it encodes as the same bytes, and so no two byte strings are decoded
as identical values. -/
theorem encode_decoded (accepted : ofIdl idl = .ok catalog) {type : TypeDef}
    (member : type ∈ idl.types) :
    ∃ bundle, catalog.bundle type.name = .ok bundle ∧
      (∀ bytes value, bundle.layout.hasCanonicalNaNs bundle.registry bytes = true →
        bundle.decode bytes = .ok value → bundle.encode value = .ok bytes) ∧
      ∀ bytes bytes' value value',
        bundle.layout.hasCanonicalNaNs bundle.registry bytes = true →
        bundle.layout.hasCanonicalNaNs bundle.registry bytes' = true →
        bundle.decode bytes = .ok value → bundle.decode bytes' = .ok value' →
        value.identical value' = true → bytes = bytes' := by
  obtain ⟨bundle, made, sound⟩ := exists_bundle accepted member
  refine ⟨bundle, made, fun _ _ => sound.encode_of_decode, ?_⟩
  intro bytes bytes' value value' canonical canonical' decoded decoded' alike
  exact Bundle.encode_of_identical (sound.encode_of_decode canonical decoded)
    (sound.encode_of_decode canonical' decoded') alike

theorem encode_decoded_chain :
    ∃ bundle, catalogOfChain.bundle "Node" = .ok bundle ∧
      ∃ value, bundle.decode [1, 0, 0, 192, 63, 1, 0, 0] = .ok value ∧
        bundle.encode value = .ok [1, 0, 0, 192, 63, 1, 0, 0] := by
  obtain ⟨bundle, made, again, -⟩ :=
    @encode_decoded chain catalogOfChain rfl _ List.mem_cons_self
  obtain ⟨value, decoded⟩ :
      ∃ value, bundle.decode [1, 0, 0, 192, 63, 1, 0, 0] = .ok value := by
    cases made
    exact ⟨_, rfl⟩
  have canonical :
      bundle.layout.hasCanonicalNaNs bundle.registry [1, 0, 0, 192, 63, 1, 0, 0] = true := by
    cases made
    rfl
  exact ⟨bundle, made, value, decoded, again _ _ canonical decoded⟩

end Catalog

end WireSchema
