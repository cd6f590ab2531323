import WireSchema.Proofs.Bundle.Decoding
import WireSchema.Proofs.Convert.Encodes
import WireSchema.Proofs.Convert.OfJson
import WireSchema.Proofs.Convert.Trimmed

/-! Encoding values of any origin. The bytes are the Borsh encoding of the value, and nothing but
too deep or too long a value is without any. -/

namespace WireSchema

open Outcome

namespace Bundle

variable {bundle : Bundle}

def typed (bundle : Bundle) (value : Value) : TypedValue :=
  ⟨value, .defined bundle.name⟩

/-- The name of a bundle counts as one that was followed. -/
theorem Sound.emit_eq (sound : bundle.Sound) (tree : Tree) :
    bundle.layout.emit bundle.registry tree =
      Codec.encodeNamed bundle.registry (maxDepth + 1) bundle.name tree := by
  rw [sound.registry, sound.layout, Codec.encodeNamed_succ maxDepth sound.known, Layout.emit,
    Codec.encodeWithin_eq]

theorem Sound.isWritten (sound : bundle.Sound) {value : Value} {tree : Tree}
    (has : Value.HasTree bundle.table value (.defined bundle.name) tree) :
    (bundle.typed value).IsWritten bundle.table (maxDepth + 1)
      (bundle.layout.emit bundle.registry tree) := by
  rw [sound.emit_eq, sound.registry]
  exact Value.encodes_of_hasTree sound.names has (maxDepth + 1)

/-- Values that the operations of a bundle give, or accept. -/
inductive Yields (bundle : Bundle) (value : Value) : Prop
  | json {json : Json} (made : bundle.valueOfJson json = .ok value)
  | tree {tree : Tree} (made : bundle.valueOfTree tree = .ok value)
  | struct {fields : Record Value} (made : bundle.constructStruct fields = .ok value)
  | enum {kind : String} {payload : Payload Value}
      (made : bundle.constructEnum kind payload = .ok value)
  | accepted {tree : Tree} (made : bundle.treeOfValue value = .ok tree)

theorem belongs_of_checked {value value' : Value} (made : bundle.checked value = .ok value') :
    Value.Belongs bundle.table value' (.defined bundle.name) := by
  obtain ⟨tree, treeMade, done⟩ := bind_eq_ok.1 made
  rw [← pure_eq_ok.1 done]
  exact ⟨tree, Value.toTree_eq_ok.1 treeMade⟩

theorem Sound.belongs_of_yields (sound : bundle.Sound) {value : Value}
    (yields : bundle.Yields value) : Value.Belongs bundle.table value (.defined bundle.name) := by
  cases yields with
  | json made => exact Value.belongs_of_ofJson sound.names made
  | tree made => exact Value.belongs_of_ofTree sound.names made
  | struct made => exact belongs_of_checked made
  | enum made =>
    obtain ⟨chosen, -, checked⟩ := bind_eq_ok.1 made
    exact belongs_of_checked checked
  | accepted made => exact ⟨_, Value.toTree_eq_ok.1 made⟩

theorem encode_of_hasTree {value : Value} {tree : Tree}
    (has : Value.HasTree bundle.table value (.defined bundle.name) tree) :
    bundle.encode value = (bundle.layout.encode bundle.registry tree).mapError .codec := by
  have made : bundle.treeOfValue value = .ok tree := Value.toTree_eq_ok.2 has
  rw [encode, made]
  rfl

theorem Sound.encode_of_fits (sound : bundle.Sound) {value : Value}
    (belongs : Value.Belongs bundle.table value (.defined bundle.name))
    (fits : (bundle.typed value).Fits bundle.table (maxDepth + 1)) :
    bundle.encode value = .ok ((bundle.typed value).borsh bundle.table) := by
  obtain ⟨tree, has⟩ := belongs
  rw [encode_of_hasTree has, Layout.encode,
    (sound.isWritten has).toExcept_of_clear (TypedValue.fits_iff_forall.1 fits)]
  rfl

theorem Sound.exceeds_of_encode (sound : bundle.Sound) {value : Value}
    (belongs : Value.Belongs bundle.table value (.defined bundle.name))
    (beyond : ¬(bundle.typed value).Fits bundle.table (maxDepth + 1)) :
    ∃ error, bundle.encode value = .error (.codec error) ∧
      (bundle.typed value).Exceeds bundle.table (maxDepth + 1) error := by
  obtain ⟨tree, has⟩ := belongs
  rw [TypedValue.fits_iff_forall, not_forall_not] at beyond
  obtain ⟨error, failed, exceeds⟩ := (sound.isWritten has).toExcept_of_arises beyond
  rw [encode_of_hasTree has, Layout.encode, failed]
  exact ⟨error, rfl, exceeds⟩

theorem Sound.borsh_of_encode (sound : bundle.Sound) {value : Value} {bytes : List UInt8}
    (encoded : bundle.encode value = .ok bytes) :
    bytes = (bundle.typed value).borsh bundle.table := by
  obtain ⟨tree, has, -⟩ := encode_eq_ok.1 encoded
  by_cases fits : (bundle.typed value).Fits bundle.table (maxDepth + 1)
  · exact Except.ok.inj (encoded.symm.trans (sound.encode_of_fits ⟨tree, has⟩ fits))
  · obtain ⟨error, failed, -⟩ := sound.exceeds_of_encode ⟨tree, has⟩ fits
    cases encoded.symm.trans failed

/-- The tag of a value is the position of its kind, and goes before the payload. -/
theorem Sound.tag_of_encode (sound : bundle.Sound) {typeName kind : String} {tag : UInt8}
    {payload : Payload Value} {bytes : List UInt8}
    (encoded : bundle.encode (.enum typeName kind tag payload) = .ok bytes) :
    bytes.head? = some tag ∧ bundle.discriminator (.enum typeName kind tag payload) = .ok tag ∧
      bundle.variants.findIdx? (fun variant => variant.name = kind) = some tag.toNat := by
  obtain ⟨tree, has, -⟩ := encode_eq_ok.1 encoded
  have borsh := sound.borsh_of_encode encoded
  generalize named : FieldType.defined bundle.name = type at has
  cases has with
  | @enum name _ variants _ variant _ trees known chosen carried =>
    cases named
    have position := (Convert.findVariant_eq_ok.1 chosen).1
    have body : bundle.type.body = .enum variants := Option.some.inj (sound.known.symm.trans known)
    have declared : bundle.variants = variants := by rw [Bundle.variants, body]
    refine ⟨?_, ?_, declared ▸ position⟩
    · rw [borsh, typed, TypedValue.borsh_eq, TypedValue.head_enum known position]
      rfl
    · have checked : Value.checkVariant bundle.name bundle.variants kind tag bundle.name =
          .ok variant := declared ▸ Value.checkVariant_eq_ok.2 chosen
      simp only [discriminator, tagAndKind, if_true, checked]
      rfl

end Bundle

namespace Catalog

variable {idl : Idl} {catalog : Catalog}

theorem name_of_bundle {name : String} {bundle : Bundle} (made : catalog.bundle name = .ok bundle) :
    bundle.name = name := by
  obtain ⟨type, found, rest⟩ := bind_eq_ok.1 made
  obtain ⟨layout, -, done⟩ := bind_eq_ok.1 rest
  rw [← pure_eq_ok.1 done]
  rw [Table.get] at found
  split at found
  next declared here =>
    cases found
    exact (Table.find?_eq_some here).2
  next => cases found

/-- Every declared type has a bundle of its own types and name. -/
theorem exists_typed_bundle (accepted : ofIdl idl = .ok catalog) {type : TypeDef}
    (member : type ∈ idl.types) : ∃ bundle, catalog.bundle type.name = .ok bundle ∧
      bundle.Sound ∧ bundle.table = ⟨idl.types⟩ ∧ bundle.name = type.name := by
  obtain ⟨bundle, made, sound⟩ := exists_bundle accepted member
  have table : catalog.table = ⟨idl.types⟩ := congrArg Catalog.table (ofIdl_eq_ok accepted).1
  exact ⟨bundle, made, sound, (table_of_bundle made).trans table, name_of_bundle made⟩

def plainNode (next : Option Value) : Value :=
  .struct "Node" [("mark", .enum "Mark" "Plain" 0 .empty), ("next", .option next)]

def plainChain : Nat → Value
  | 0 => plainNode none
  | length + 1 => plainNode (some (plainChain length))

/-- The name of the node is followed for its mark and for what comes next. -/
theorem fits_plainNode (next : Option Value) (budget : Nat) :
    TypedValue.Fits ⟨chain.types⟩ budget ⟨plainNode next, .defined "Node"⟩ ↔ 2 ≤ budget ∧
      TypedValue.Fits ⟨chain.types⟩ (budget - 1) ⟨.option next, .option (.defined "Node")⟩ := by
  have plain : TypedValue.Fits ⟨chain.types⟩ (budget - 1)
      ⟨.enum "Mark" "Plain" 0 .empty, .defined "Mark"⟩ ↔ 1 ≤ budget - 1 := by
    have leaf : TypedValue.parts ⟨chain.types⟩
        ⟨.enum "Mark" "Plain" 0 .empty, .defined "Mark"⟩ = [] := rfl
    rw [TypedValue.fits_iff, leaf]
    simp [TypedValue.count, FieldType.hops]
  have node : Table.body? ⟨chain.types⟩ "Node" =
      some (.struct [⟨"mark", .defined "Mark"⟩, ⟨"next", .option (.defined "Node")⟩]) := rfl
  have members : TypedValue.ofMembers
      [("mark", .enum "Mark" "Plain" 0 .empty), ("next", .option next)]
      [⟨"mark", .defined "Mark"⟩, ⟨"next", .option (.defined "Node")⟩] =
      [⟨.enum "Mark" "Plain" 0 .empty, .defined "Mark"⟩,
        ⟨.option next, .option (.defined "Node")⟩] := rfl
  rw [plainNode, TypedValue.fits_struct node, members, List.forall_mem_cons,
    List.forall_mem_singleton, plain, ← and_assoc]
  exact and_congr_left' (by omega)

/-- Every node takes one name more than the one before it, and the last mark one besides. -/
theorem fits_plainChain {length budget : Nat} :
    TypedValue.Fits ⟨chain.types⟩ budget ⟨plainChain length, .defined "Node"⟩ ↔
      length + 2 ≤ budget := by
  induction length generalizing budget with
  | zero =>
    rw [plainChain, fits_plainNode, and_iff_left (TypedValue.fits_none _ _ _)]
  | succ length ih =>
    rw [plainChain, fits_plainNode, TypedValue.fits_some, ih]
    omega

theorem belongs_plainChain (length : Nat) :
    Value.Belongs ⟨chain.types⟩ (plainChain length) (.defined "Node") := by
  have node (next : Option Value)
      (belongs : Value.Belongs ⟨chain.types⟩ (.option next) (.option (.defined "Node"))) :
      Value.Belongs ⟨chain.types⟩ (plainNode next) (.defined "Node") := by
    have mark : Value.Belongs ⟨chain.types⟩ (.enum "Mark" "Plain" 0 .empty) (.defined "Mark") :=
      ⟨_, .enum rfl rfl .empty⟩
    exact Value.belongs_struct rfl (by decide) (.cons ⟨rfl, mark⟩ (.cons ⟨rfl, belongs⟩ .nil))
  induction length with
  | zero => exact node none (Value.belongs_none _)
  | succ length ih => exact node _ (Value.belongs_some ih)

/-- Bytes are those of the value alone. The first one of an enum is the tag that the value has,
which is the position of its kind among the variants. -/
theorem encode_borsh (accepted : ofIdl idl = .ok catalog) {type : TypeDef}
    (member : type ∈ idl.types) :
    ∃ bundle, catalog.bundle type.name = .ok bundle ∧
      (∀ value bytes, bundle.encode value = .ok bytes →
        bytes = TypedValue.borsh ⟨idl.types⟩ ⟨value, .defined type.name⟩) ∧
      ∀ typeName kind tag payload bytes,
        bundle.encode (.enum typeName kind tag payload) = .ok bytes →
          bytes.head? = some tag ∧
          bundle.discriminator (.enum typeName kind tag payload) = .ok tag ∧
          bundle.variants.findIdx? (fun variant => variant.name = kind) = some tag.toNat := by
  obtain ⟨bundle, made, sound, table, name⟩ := exists_typed_bundle accepted member
  refine ⟨bundle, made, fun value bytes encoded => ?_, fun _ _ _ _ _ => sound.tag_of_encode⟩
  rw [← table, ← name]
  exact sound.borsh_of_encode encoded

/-- A node before the last one, and a mark by itself. -/
theorem encode_borsh_chain :
    (∃ bundle, catalogOfChain.bundle "Node" = .ok bundle ∧
      bundle.encode (plainNode (some (plainNode none))) = .ok [0, 1, 0, 0] ∧
      TypedValue.borsh ⟨chain.types⟩ ⟨plainNode (some (plainNode none)), .defined "Node"⟩ =
        [0, 1, 0, 0]) ∧
    ∃ bundle, catalogOfChain.bundle "Mark" = .ok bundle ∧
      let mark := Value.enum "Mark" "Weighed" 1 (.tuple [.float ⟨0x3ff8000000000000⟩])
      bundle.encode mark = .ok [1, 0, 0, 192, 63] ∧ bundle.discriminator mark = .ok 1 ∧
        bundle.variants.findIdx? (fun variant => variant.name = "Weighed") = some 1 := by
  constructor
  · obtain ⟨bundle, made, borsh, -⟩ :=
      @encode_borsh chain catalogOfChain rfl _ List.mem_cons_self
    have encoded : bundle.encode (plainNode (some (plainNode none))) = .ok [0, 1, 0, 0] := by
      cases made
      rfl
    exact ⟨bundle, made, encoded, (borsh _ _ encoded).symm⟩
  · obtain ⟨bundle, made, -, tags⟩ :=
      @encode_borsh chain catalogOfChain rfl _ (List.mem_cons_of_mem _ List.mem_cons_self)
    have encoded : bundle.encode (.enum "Mark" "Weighed" 1
        (.tuple [.float ⟨0x3ff8000000000000⟩])) = .ok [1, 0, 0, 192, 63] := by
      cases made
      rfl
    obtain ⟨-, discriminator, position⟩ := tags _ _ _ _ _ encoded
    exact ⟨bundle, made, encoded, discriminator, position⟩

/-- Values of any origin are encoded, unless more than `maxDepth` names stand inside one another
below the bundle or a length takes more than 32 bits. The fault is then such a limit. -/
theorem encode_within_limits (accepted : ofIdl idl = .ok catalog) {type : TypeDef}
    (member : type ∈ idl.types) :
    ∃ bundle, catalog.bundle type.name = .ok bundle ∧ ∀ value, bundle.Yields value →
      (TypedValue.Fits ⟨idl.types⟩ (maxDepth + 1) ⟨value, .defined type.name⟩ →
        ∃ bytes, bundle.encode value = .ok bytes) ∧
      (¬TypedValue.Fits ⟨idl.types⟩ (maxDepth + 1) ⟨value, .defined type.name⟩ →
        ∃ error, bundle.encode value = .error (.codec error) ∧
          TypedValue.Exceeds ⟨idl.types⟩ (maxDepth + 1) ⟨value, .defined type.name⟩ error) := by
  obtain ⟨bundle, made, sound, table, name⟩ := exists_typed_bundle accepted member
  refine ⟨bundle, made, fun value yields => ?_⟩
  have belongs := sound.belongs_of_yields yields
  rw [← table, ← name]
  exact ⟨fun fits => ⟨_, sound.encode_of_fits belongs fits⟩, sound.exceeds_of_encode belongs⟩

/-- Sixty-four nodes stand inside one another with the last mark still in reach, and no more. -/
theorem encode_within_limits_chain :
    ∃ bundle, catalogOfChain.bundle "Node" = .ok bundle ∧
      (∃ bytes, bundle.encode (plainChain 63) = .ok bytes) ∧
      bundle.encode (plainChain 64) = .error (.codec (.depthLimit maxDepth)) ∧
      TypedValue.Exceeds ⟨chain.types⟩ (maxDepth + 1) ⟨plainChain 64, .defined "Node"⟩
        (.depthLimit maxDepth) := by
  obtain ⟨bundle, made, limits⟩ :=
    @encode_within_limits chain catalogOfChain rfl _ List.mem_cons_self
  have yields (length : Nat) : bundle.Yields (plainChain length) := by
    obtain ⟨tree, has⟩ := belongs_plainChain length
    cases made
    exact .accepted (Value.toTree_eq_ok.2 has)
  have deep : bundle.encode (plainChain 64) = .error (.codec (.depthLimit maxDepth)) := by
    cases made
    set_option maxRecDepth 8192 in rfl
  refine ⟨bundle, made, (limits _ (yields 63)).1 (fits_plainChain.2 (by decide)), deep, ?_⟩
  obtain ⟨error, failed, exceeds⟩ :=
    (limits _ (yields 64)).2 (by rw [fits_plainChain]; decide)
  cases deep.symm.trans failed
  exact exceeds

end Catalog

end WireSchema
