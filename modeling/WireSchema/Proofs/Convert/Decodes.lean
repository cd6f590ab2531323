import WireSchema.Proofs.Convert.OfTree

/-! Trees that reading gives under the layout of a type. Each of them is the tree of one value,
and the conversion finds that value. -/

namespace WireSchema

open Outcome

namespace Read

/-- What holds of all results of a read holds of all results of reading many times. -/
theorem only_all_repeated {read : Read α} {valid : α → Prop}
    (only : read.Only fun _ value => valid value) (count : Nat) :
    (read.repeated count).Only fun _ values =>
      values.length = count ∧ ∀ value ∈ values, valid value := by
  apply (only_repeated only count).mono
  intro bytes values known
  obtain ⟨sized, parts, -, all⟩ := known
  refine ⟨sized, ?_⟩
  clear sized
  induction all with
  | nil => simp
  | cons first _ ih => exact List.forall_mem_cons.2 ⟨first, ih⟩

end Read

namespace Value

variable {table : Table}

def Decodes (table : Table) (type : FieldType) (tree : Tree) : Prop :=
  ∃ value, HasTree table value type tree ∧ ∀ path, ofTree table tree type path = .ok value

def MemberDecodes (table : Table) (field : Field) (entry : String × Tree) : Prop :=
  entry.1 = field.name ∧ Decodes table field.type entry.2

/-! ## Trees with parts -/

theorem items_of_decodes {type : FieldType} {trees : List Tree}
    (all : ∀ tree ∈ trees, Decodes table type tree) :
    ∃ items, HaveTrees table items type trees ∧
      ∀ path position, ofItems table trees type path position = .ok items := by
  induction trees with
  | nil => exact ⟨[], .nil, fun _ _ => rfl⟩
  | cons tree rest ih =>
    obtain ⟨first, others⟩ := List.forall_mem_cons.1 all
    obtain ⟨value, has, made⟩ := first
    obtain ⟨items, haveTrees, restMade⟩ := ih others
    exact ⟨value :: items, .cons has haveTrees, fun path position =>
      bind_eq_ok.2 ⟨value, made _, bind_eq_ok.2 ⟨items, restMade path (position + 1), rfl⟩⟩⟩

theorem decodes_vec {item : FieldType} {trees : List Tree}
    (all : ∀ tree ∈ trees, Decodes table item tree) : Decodes table (.vec item) (.list trees) := by
  obtain ⟨items, haveTrees, made⟩ := items_of_decodes all
  exact ⟨.list items, .vec haveTrees, fun path => map_eq_ok.2 ⟨items, made path 0, rfl⟩⟩

theorem decodes_array {item : FieldType} {length : Nat} {trees : List Tree}
    (sized : trees.length = length) (all : ∀ tree ∈ trees, Decodes table item tree) :
    Decodes table (.array item length) (.list trees) := by
  obtain ⟨items, haveTrees, made⟩ := items_of_decodes all
  refine ⟨.list items, .array (length_of_haveTrees haveTrees ▸ sized) haveTrees, fun path => ?_⟩
  simp only [ofTree, if_pos sized]
  exact map_eq_ok.2 ⟨items, made path 0, rfl⟩

theorem decodes_none (item : FieldType) : Decodes table (.option item) (.option none) :=
  ⟨.option none, .none item, fun _ => rfl⟩

theorem decodes_some {item : FieldType} {tree : Tree} (inner : Decodes table item tree) :
    Decodes table (.option item) (.option (some tree)) := by
  obtain ⟨value, has, made⟩ := inner
  exact ⟨.option (some value), .some has, fun path => map_eq_ok.2 ⟨value, made path, rfl⟩⟩

theorem decodes_map {key item : FieldType} {pairs : List (Tree × Tree)}
    (all : ∀ pair ∈ pairs, Decodes table key pair.1 ∧ Decodes table item pair.2) :
    Decodes table (.hashMap key item) (.map pairs) := by
  suffices ∃ entries, PairsHaveTrees table entries key item pairs ∧
      ∀ path position, ofEntries table pairs key item path position = .ok entries by
    obtain ⟨entries, haveTrees, made⟩ := this
    exact ⟨.map entries, .map haveTrees, fun path => map_eq_ok.2 ⟨entries, made path 0, rfl⟩⟩
  induction pairs with
  | nil => exact ⟨[], .nil, fun _ _ => rfl⟩
  | cons pair rest ih =>
    obtain ⟨⟨keyDecodes, itemDecodes⟩, others⟩ := List.forall_mem_cons.1 all
    obtain ⟨first, firstHas, firstMade⟩ := keyDecodes
    obtain ⟨second, secondHas, secondMade⟩ := itemDecodes
    obtain ⟨entries, haveTrees, restMade⟩ := ih others
    exact ⟨(first, second) :: entries, .cons firstHas secondHas haveTrees, fun path position =>
      bind_eq_ok.2 ⟨first, firstMade _, bind_eq_ok.2 ⟨second, secondMade _,
        bind_eq_ok.2 ⟨entries, restMade path (position + 1), rfl⟩⟩⟩⟩

/-- Both directions look members up by name, and so the records may be any that have them. -/
theorem members_of_decodes {declared : List Field} {trees : Record Tree}
    (each : List.Forall₂ (MemberDecodes table) declared trees)
    (distinct : (declared.map Field.name).Nodup) :
    ∃ fields : Record Value, Record.keys fields = declared.map Field.name ∧
      MembersHaveTrees table fields declared trees ∧
      ∀ path, Convert.members (ofFields table trees) path declared = .ok fields := by
  have treeKeys := Convert.keys_eq_names each fun _ _ => And.left
  suffices ∃ fields : Record Value, Record.keys fields = declared.map Field.name ∧
      (∀ record : Record Value, (∀ entry ∈ fields, Record.get? record entry.1 = some entry.2) →
        MembersHaveTrees table record declared trees) ∧
      ∀ record : Record Tree, (∀ entry ∈ trees, Record.get? record entry.1 = some entry.2) →
        ∀ path, Convert.members (ofFields table record) path declared = .ok fields by
    obtain ⟨fields, keys, haveTrees, made⟩ := this
    refine ⟨fields, keys, haveTrees fields fun entry member => ?_,
      made trees fun entry member => ?_⟩
    · exact Record.get?_of_mem (keys ▸ distinct) member
    · exact Record.get?_of_mem (treeKeys ▸ distinct) member
  clear distinct treeKeys
  induction each with
  | nil => exact ⟨[], rfl, fun _ _ => .nil, fun _ _ _ => rfl⟩
  | @cons field entry declared trees first _ ih =>
    obtain ⟨key, tree⟩ := entry
    obtain ⟨named, value, has, made⟩ := first
    cases named
    obtain ⟨fields, keys, haveTrees, restMade⟩ := ih
    refine ⟨(field.name, value) :: fields, congrArg (field.name :: ·) keys, ?_, ?_⟩
    · intro record agrees
      obtain ⟨here, below⟩ := List.forall_mem_cons.1 agrees
      exact .cons here has (haveTrees record below)
    · intro record agrees path
      obtain ⟨here, below⟩ := List.forall_mem_cons.1 agrees
      rw [Convert.members, get?_ofFields, here, Option.map_some]
      simp only [made, restMade record below]
      rfl

theorem decodes_struct {name : String} {declared : List Field} {trees : Record Tree}
    (known : table.body? name = some (.struct declared))
    (distinct : (declared.map Field.name).Nodup)
    (each : List.Forall₂ (MemberDecodes table) declared trees) :
    Decodes table (.defined name) (.record trees) := by
  obtain ⟨fields, keys, haveTrees, made⟩ := members_of_decodes each distinct
  refine ⟨.struct name fields, .struct known (fun key member => keys ▸ member) haveTrees, ?_⟩
  intro path
  rw [ofTree_struct known, made]
  rfl

theorem keyedFrom_values {position : Nat} {types : List FieldType} {fields : Record Value}
    (keys : Record.keys fields = (elementsFrom position types).map Field.name) :
    fields = keyedFrom position (fields.map Prod.snd) ∧ types.length = fields.length := by
  induction types generalizing position fields with
  | nil =>
    cases fields with
    | nil => exact ⟨rfl, rfl⟩
    | cons field rest => cases keys
  | cons type types ih =>
    cases fields with
    | nil => cases keys
    | cons field rest =>
      obtain ⟨named, remaining⟩ := List.cons.inj keys
      obtain ⟨same, sized⟩ := ih remaining
      refine ⟨?_, congrArg Nat.succ sized⟩
      rw [List.map_cons, keyedFrom, ← same]
      exact congrArg (· :: rest) (Prod.ext named rfl)

/-- Entries in the order of declaration have the trees of the payload that they make up. -/
theorem payloadHasTrees_carry {shape : Shape} {fields : Record Value} {trees : Record Tree}
    (keys : Record.keys fields = shape.members.map Field.name)
    (haveTrees : MembersHaveTrees table fields shape.members trees) :
    PayloadHasTrees table (carry shape fields) shape trees := by
  cases shape with
  | empty =>
    cases haveTrees
    exact .empty
  | named declared => exact .named (fun key member => keys ▸ member) haveTrees
  | tuple types =>
    rw [members_tuple] at keys
    obtain ⟨same, sized⟩ := keyedFrom_values keys
    refine .tuple (by rw [List.length_map, sized]) ?_
    rwa [← same]

theorem decodes_enum {name kind : String} {variants : List Variant} {tag : UInt8}
    {variant : Variant} {trees : Record Tree}
    (known : table.body? name = some (.enum variants))
    (chosen : Convert.findVariant name variants kind = .ok (tag.toNat, variant))
    (distinct : (variant.shape.members.map Field.name).Nodup)
    (each : List.Forall₂ (MemberDecodes table) variant.shape.members trees) :
    Decodes table (.defined name) (.variant kind (.record trees)) := by
  obtain ⟨fields, keys, haveTrees, made⟩ := members_of_decodes each distinct
  refine ⟨.enum name kind tag (carry variant.shape fields),
    .enum known chosen (payloadHasTrees_carry keys haveTrees), fun path => ?_⟩
  rw [ofTree_enum known chosen, ofPayload_record, made, Convert.tagOf, UInt8.ofNat_toNat]
  rfl

/-! ## Reading -/

theorem parseVariant_eq (read : String → Read Tree) (variants : List (String × Layout))
    (index : Nat) :
    Codec.parseVariant read variants index = variants[index]?.map fun variant =>
      Codec.parseWith read variant.2 >>= fun payload => pure (.variant variant.1 payload) := by
  induction variants generalizing index with
  | nil => rfl
  | cons variant rest ih =>
    cases index with
    | zero => rfl
    | succ index => exact ih index

theorem findVariant_of_getElem? {enumName : String} {variants : List Variant} {index : Nat}
    {variant : Variant} (distinct : (variants.map Variant.name).Nodup)
    (found : variants[index]? = some variant) :
    Convert.findVariant enumName variants variant.name = .ok (index, variant) := by
  rw [Convert.findVariant_eq_ok]
  induction variants generalizing index with
  | nil => cases found
  | cons first rest ih =>
    obtain ⟨fresh, others⟩ := List.nodup_cons.1 distinct
    cases index with
    | zero =>
      cases found
      simp [List.findIdx?_cons]
    | succ index =>
      have member : variant ∈ rest := List.mem_of_getElem? found
      have other : first.name ≠ variant.name := fun same =>
        fresh (same ▸ List.mem_map_of_mem member)
      obtain ⟨position, chosen⟩ := ih others found
      rw [List.findIdx?_cons, List.find?_cons_of_neg (by simpa using other), position]
      exact ⟨by simp [other], chosen⟩

theorem only_decodes_primitive (p : Primitive) :
    (Codec.parsePrimitive p).Only fun _ tree => Decodes table (.primitive p) tree := by
  cases p with
  | bool =>
    apply Read.Only.map Tree.bool
    apply (Codec.only_parseFlag _).mono
    intro _ flag _
    exact ⟨.bool flag, .bool flag, fun _ => rfl⟩
  | unsigned width =>
    apply Read.Only.map _
    apply (Read.only_take width.bytes).mono
    intro bytes content taken
    have bound := width.containsNat_natOfBytes (taken.1 ▸ taken.2)
    exact ⟨.unsigned _, .unsigned bound, ofTree_unsigned bound⟩
  | signed width =>
    apply Read.Only.map _
    apply (Read.only_take width.bytes).mono
    intro bytes content taken
    have bound := width.containsInt_intOfBytes (taken.1 ▸ taken.2)
    exact ⟨.signed _, .signed bound, ofTree_signed bound⟩
  | single =>
    apply Read.Only.map _
    apply (Read.only_take 4).mono
    intro bytes content taken
    have exact := Binary64.toSingle_widen (UInt32.ofNat (Word.natOfBytes content))
    exact ⟨.float _, .single (.inr exact), fun _ => congrArg (Except.ok ∘ Value.float) exact⟩
  | double =>
    apply Read.Only.map _
    apply (Read.only_take 8).mono
    intro bytes content taken
    exact ⟨.float _, .double _, fun _ => rfl⟩
  | string =>
    apply Read.only_prefixed.bind
    intro _ content _
    split
    next text _ => exact Read.only_pure ⟨.string text, .string text, fun _ => rfl⟩
    next => exact Read.only_fail _ _
  | bytes =>
    apply Read.Only.map Tree.bytes
    apply Read.only_prefixed.mono
    intro _ content _
    exact ⟨.bytes content, .bytes content, fun _ => rfl⟩
  | publicKey =>
    apply Read.Only.map Tree.bytes
    apply (Read.only_take 32).mono
    intro bytes content taken
    let key : PublicKey := ⟨content, taken.1 ▸ taken.2⟩
    exact ⟨.publicKey key, .publicKey key, ofTree_publicKey key⟩

section

variable {read : String → Read Tree}

theorem only_decodes_type
    (hop : ∀ name, (read name).Only fun _ tree => Decodes table (.defined name) tree)
    (type : FieldType) :
    (Codec.parseWith read type.layout).Only fun _ tree => Decodes table type tree := by
  -- The induction ends at names. What they lead to is not smaller, and takes one hop of a budget.
  induction type with
  | primitive p => exact only_decodes_primitive p
  | vec item ih =>
    refine Read.only_length.bind fun _ count _ => Read.Only.map Tree.list ?_
    exact (Read.only_all_repeated ih count).mono fun _ trees known => decodes_vec known.2
  | option item ih =>
    apply (Codec.only_parseFlag _).bind
    intro _ flag _
    cases flag with
    | false => exact Read.only_pure (decodes_none item)
    | true => exact Read.Only.map _ (ih.mono fun _ tree inner => decodes_some inner)
  | array item length ih =>
    apply Read.Only.map Tree.list
    exact (Read.only_all_repeated ih length).mono fun _ trees known =>
      decodes_array known.1 known.2
  | hashMap key item keyIh itemIh =>
    refine Read.only_length.bind fun _ count _ => Read.Only.map Tree.map ?_
    refine (Read.only_all_repeated ?_ count).mono fun _ pairs known => decodes_map known.2
    refine keyIh.bind fun _ first firstDecodes => Read.Only.map (fun tree => (first, tree)) ?_
    exact itemIh.mono fun _ second secondDecodes => ⟨firstDecodes, secondDecodes⟩
  | defined name => exact hop name

theorem only_decodes_members
    (hop : ∀ name, (read name).Only fun _ tree => Decodes table (.defined name) tree)
    (declared : List Field) :
    (Codec.parseFields read (declared.map Field.layout)).Only fun _ entries =>
      List.Forall₂ (MemberDecodes table) declared entries := by
  induction declared with
  | nil => exact Read.only_pure .nil
  | cons field rest ih =>
    apply (only_decodes_type hop field.type).bind
    intro _ tree decodes
    apply Read.Only.map (fun entries => (field.name, tree) :: entries)
    exact ih.mono fun _ entries each => .cons ⟨rfl, decodes⟩ each

theorem only_decodes_body (names : table.HasNames)
    (hop : ∀ name, (read name).Only fun _ tree => Decodes table (.defined name) tree)
    {name : String} {body : TypeBody} (known : table.body? name = some body) :
    (Codec.parseWith read body.layout).Only fun _ tree => Decodes table (.defined name) tree := by
  have bodyNames := names.of_body? known
  cases body with
  | struct declared =>
    refine Read.Only.map Tree.record ((only_decodes_members hop declared).mono ?_)
    exact fun _ entries each => decodes_struct known bodyNames.distinct each
  | enum variants =>
    obtain ⟨-, variantNames, shapes⟩ := bodyNames
    apply Read.only_byte.bind
    intro _ tag _
    split
    next payloadRead found =>
      rw [parseVariant_eq, List.getElem?_map, Option.map_map, Option.map_eq_some_iff] at found
      obtain ⟨variant, here, rfl⟩ := found
      apply Read.Only.map (Tree.variant variant.name)
      refine Read.Only.map Tree.record ((only_decodes_members hop variant.shape.members).mono ?_)
      exact fun _ entries each => decodes_enum known
        (findVariant_of_getElem? variantNames.distinct here)
        (shapes variant (List.mem_of_getElem? here)).distinct_members each
    next => exact Read.only_fail _ _

end

theorem parseWithin_eq (registry : Registry) (budget : Nat) (layout : Layout) :
    Codec.parseWithin registry budget layout =
      Codec.parseWith (fun name => Codec.parseWithin registry budget (.defined name)) layout := by
  cases budget with
  | zero => rfl
  | succ budget => rfl

theorem parseWithin_defined (registry : Registry) (budget : Nat) (name : String) :
    Codec.parseWithin registry (budget + 1) (.defined name) =
      match Record.get? registry name with
      | some layout => Codec.parseWithin registry budget layout
      | none => Read.fail (.unknownLayout name) :=
  rfl

/-- A name stands for the body of its definition, and so each hop leads to another one. -/
theorem only_decodes_name (names : table.HasNames) (budget : Nat) (name : String) :
    (Codec.parseWithin (table.types.map TypeDef.layout) budget (.defined name)).Only
      fun _ tree => Decodes table (.defined name) tree := by
  induction budget generalizing name with
  | zero => exact Read.only_fail _ _
  | succ budget ih =>
    rw [parseWithin_defined, get?_layouts]
    cases found : table.find? name with
    | none => exact Read.only_fail _ _
    | some type =>
      have known : table.body? name = some type.body := by rw [Table.body?, found, Option.map_some]
      simp only [Option.map_some]
      rw [parseWithin_eq]
      exact only_decodes_body names ih known

end Value

end WireSchema
