import WireSchema.Proofs.Convert.Borsh
import WireSchema.Proofs.Convert.Members
import WireSchema.Proofs.Layout.Synthesis

/-! Writing the trees of values. Under the layout of a type, the tree of a value is written as the
Borsh encoding of that value, unless the value is too deep or too long. -/

namespace WireSchema

namespace Codec

/-- The definition of a name, with so many names to follow, the first one included. -/
def encodeNamed (registry : Registry) (budget : Nat) (name : String) : Tree → Emission :=
  encodeWithin registry budget (.defined name)

/-- Layouts are treated in one way, however many names may still follow. -/
theorem encodeWithin_eq (registry : Registry) (budget : Nat) (layout : Layout) (tree : Tree) :
    encodeWithin registry budget layout tree =
      encodeWith (encodeNamed registry budget) layout tree := by
  cases budget with
  | zero => rfl
  | succ budget => rfl

/-- A name that is followed leads to the layout of its definition. -/
theorem encodeNamed_succ {table : Table} {name : String} {body : TypeBody} (budget : Nat)
    (known : table.body? name = some body) (tree : Tree) :
    encodeNamed (table.types.map TypeDef.layout) (budget + 1) name tree =
      encodeWith (encodeNamed (table.types.map TypeDef.layout) budget) body.layout tree := by
  obtain ⟨type, found, rfl⟩ := Option.map_eq_some_iff.1 known
  have layout : Record.get? (table.types.map TypeDef.layout) name = some type.body.layout := by
    rw [get?_layouts, found, Option.map_some]
  rw [← encodeWithin_eq]
  simp only [encodeNamed, encodeWithin, encodeWith, layout]

/-- The tag of a variant is its position among all variants. -/
theorem encodeVariant_layouts {named : String → Tree → Emission} {variants : List Variant}
    {kind : String} {index : Nat} {variant : Variant}
    (position : variants.findIdx? (fun variant => variant.name = kind) = some index)
    (found : variants.find? (fun variant => variant.name = kind) = some variant)
    (start : Nat) (payload : Tree) :
    encodeVariant named (variants.map Variant.layout) start kind payload =
      some ((encodeTag (start + index)).andThen
        (encodeWith named variant.shape.layout payload)) := by
  -- Tags count on from `start`, while positions start again at every rest of the list.
  induction variants generalizing index start with
  | nil => cases found
  | cons first rest ih =>
    rw [List.map_cons, Variant.layout, encodeVariant]
    rw [List.findIdx?_cons] at position
    by_cases same : first.name = kind
    · rw [List.find?_cons_of_pos (by simpa using same)] at found
      obtain rfl : 0 = index := by simpa [same] using position
      rw [if_pos same, Option.some.inj found, Nat.add_zero]
    · rw [List.find?_cons_of_neg (by simpa using same)] at found
      rw [if_neg (by simpa using same)] at position
      obtain ⟨below, here, rfl⟩ := Option.map_eq_some_iff.1 position
      rw [if_neg same, ih here found, Nat.add_assoc, Nat.add_comm 1]

end Codec

namespace TypedValue

/-! ## Emissions of parts -/

def IsWritten (table : Table) (budget : Nat) (whole : TypedValue) (emission : Emission) : Prop :=
  emission.Limited (whole.Exceeds table budget) (whole.borsh table)

def AreWritten (table : Table) (budget : Nat) (parts : List TypedValue) (emission : Emission) :
    Prop :=
  emission.Limited (fun error => ∃ part ∈ parts, part.Exceeds table budget error)
    (parts.flatMap (borsh table))

variable {table : Table} {budget : Nat} {whole : TypedValue} {parts parts' : List TypedValue}
  {emission emission' : Emission}

theorem areWritten_nil : AreWritten table budget [] (.ofBytes []) :=
  (Emission.limited_ofBytes []).congr (by simp) rfl

theorem AreWritten.append (written : AreWritten table budget parts emission)
    (written' : AreWritten table budget parts' emission') :
    AreWritten table budget (parts ++ parts') (emission.andThen emission') := by
  refine (Emission.Limited.andThen written written').congr ?_ List.flatMap_append.symm
  simp only [List.mem_append, or_and_right, exists_or, implies_true]

theorem IsWritten.single (written : whole.IsWritten table budget emission) :
    AreWritten table budget [whole] emission :=
  Emission.Limited.congr written (by simp) (by simp)

theorem AreWritten.cons (written : whole.IsWritten table budget emission)
    (written' : AreWritten table budget parts emission') :
    AreWritten table budget (whole :: parts) (emission.andThen emission') :=
  written.single.append written'

/-- A value is written as its own bytes and then its parts, for which there is one name less if
the value is one of a definition. -/
theorem isWritten_of_parts (enough : whole.type.hops ≤ budget)
    (own : emission.Limited (Emission.TooLong whole.count) (whole.head table))
    (written : AreWritten table (budget - whole.type.hops) (whole.parts table) emission') :
    whole.IsWritten table budget (emission.andThen emission') := by
  refine (own.andThen written).congr (fun error => ?_) (borsh_eq table whole).symm
  rw [exceeds_iff, or_iff_right (not_and_of_not_left _ (Nat.not_lt.2 enough))]

theorem isWritten_of_leaf (plain : whole.type.hops = 0) (leaf : whole.parts table = [])
    (own : emission.Limited (Emission.TooLong whole.count) (whole.head table)) :
    whole.IsWritten table budget emission := by
  refine own.congr (fun error => ?_) ?_
  · rw [exceeds_iff, leaf, plain]
    simp
  · rw [borsh_eq, leaf, List.flatMap_nil, List.append_nil]

/-- Values of definitions are too deep when there is no name left. -/
theorem isWritten_zero (name : String) (value : Value) (tree : Tree) :
    IsWritten table 0 ⟨value, .defined name⟩
      (Codec.encodeNamed (table.types.map TypeDef.layout) 0 name tree) :=
  .stopped (.depth .self Nat.one_pos) rfl

/-- Without a length there is nothing to check before the parts. -/
theorem limited_head (uncounted : whole.count = 0) :
    (Emission.ofBytes (whole.head table)).Limited (Emission.TooLong whole.count)
      (whole.head table) :=
  .written (uncounted ▸ Emission.not_tooLong_zero) rfl

theorem isWritten_own (plain : whole.type.hops = 0) (leaf : whole.parts table = [])
    (uncounted : whole.count = 0) (own : emission = .ofBytes (whole.head table)) :
    whole.IsWritten table budget emission := by
  rw [own]
  exact isWritten_of_leaf plain leaf (limited_head uncounted)

theorem isWritten_of_parts_only (enough : whole.type.hops ≤ budget) (uncounted : whole.count = 0)
    (headless : whole.head table = [])
    (written : AreWritten table (budget - whole.type.hops) (whole.parts table) emission) :
    whole.IsWritten table budget emission := by
  have own : (Emission.ofBytes []).Limited (Emission.TooLong whole.count) (whole.head table) := by
    rw [← headless]
    exact limited_head uncounted
  exact isWritten_of_parts enough own written

/-- The elements of a tuple are the members under their keys. -/
theorem ofMembers_elementsFrom {fields : Record Value} {position : Nat} {items : List Value}
    {types : List FieldType} (sized : types.length = items.length)
    (holds : HoldsFrom fields position items) :
    ofMembers fields (elementsFrom position types) =
      (items.zip types).map fun element => ⟨element.1, element.2⟩ := by
  induction types generalizing position items with
  | nil =>
    cases items with
    | nil => rfl
    | cons item others => cases sized
  | cons type rest ih =>
    cases items with
    | nil => cases sized
    | cons item others =>
      have below := ih (Nat.succ.inj sized) holds.rest
      simp only [ofMembers, elementsFrom] at below ⊢
      rw [keyedFrom, List.map_cons, List.filterMap_cons, holds.first, below]
      rfl

end TypedValue

namespace Value

variable {table : Table}

/-- The tree is written as the value, however many names may be followed. -/
def Encodes (table : Table) (whole : TypedValue) (tree : Tree) : Prop :=
  ∀ budget, whole.IsWritten table budget
    (Codec.encodeWith (Codec.encodeNamed (table.types.map TypeDef.layout) budget)
      whole.type.layout tree)

theorem encodes_unsigned {width : Width} {n : Nat} (bound : width.containsNat n = true) :
    Encodes table ⟨.unsigned n, .primitive (.unsigned width)⟩ (.unsigned n) := by
  intro budget
  have written : Codec.encodeUnsigned (Primitive.unsigned width).name width n =
      .ofBytes (littleEndian width.bytes n) := by
    rw [Codec.encodeUnsigned, Int.toNat_natCast, if_pos ⟨Int.natCast_nonneg n, bound⟩,
      bytesOfNat_eq]
  exact TypedValue.isWritten_own rfl rfl rfl written

theorem encodes_signed {width : Width} {i : Int} (bound : width.containsInt i = true) :
    Encodes table ⟨.signed i, .primitive (.signed width)⟩ (.signed i) := by
  intro budget
  have written : Codec.encodeSigned (Primitive.signed width).name width i =
      .ofBytes (twosComplement width.bytes i) := by
    rw [Codec.encodeSigned, if_pos bound, bytesOfInt_eq bound]
  exact TypedValue.isWritten_own rfl rfl rfl written

theorem encodes_single (x : Binary64) :
    Encodes table ⟨.float x, .primitive .single⟩ (.float x) := by
  intro budget
  exact TypedValue.isWritten_own rfl rfl rfl (congrArg Emission.ofBytes (bytesOfNat_eq 4 _))

theorem encodes_double (x : Binary64) :
    Encodes table ⟨.float x, .primitive .double⟩ (.float x) := by
  intro budget
  exact TypedValue.isWritten_own rfl rfl rfl (congrArg Emission.ofBytes (bytesOfNat_eq 8 _))

theorem encodes_string (s : String) :
    Encodes table ⟨.string s, .primitive .string⟩ (.string s) := by
  intro budget
  have own := Emission.limited_prefixed s.toUTF8.data.toList
  rw [bytesOfNat_eq] at own
  exact TypedValue.isWritten_of_leaf rfl rfl own

theorem encodes_bytes (b : List UInt8) :
    Encodes table ⟨.bytes b, .primitive .bytes⟩ (.bytes b) := by
  intro budget
  have own := Emission.limited_prefixed b
  rw [bytesOfNat_eq] at own
  exact TypedValue.isWritten_of_leaf rfl rfl own

theorem encodes_publicKey (key : PublicKey) :
    Encodes table ⟨.publicKey key, .primitive .publicKey⟩ (.bytes key.bytes) := by
  intro budget
  exact TypedValue.isWritten_own rfl rfl rfl (if_pos key.size)

def MembersEncode (table : Table) (fields : Record Value) (declared : List Field)
    (trees : Record Tree) : Prop :=
  ∀ budget (record : Record Tree),
    (∀ entry ∈ trees, Record.get? record entry.1 = some entry.2) →
      TypedValue.AreWritten table budget (TypedValue.ofMembers fields declared)
        (Codec.encodeFields (Codec.encodeNamed (table.types.map TypeDef.layout) budget)
          (declared.map Field.layout) record)

theorem membersEncode_nil (fields : Record Value) : MembersEncode table fields [] [] :=
  fun _ _ _ => TypedValue.areWritten_nil

theorem membersEncode_cons {fields : Record Value} {field : Field} {declared : List Field}
    {value : Value} {tree : Tree} {trees : Record Tree}
    (found : Record.get? fields field.name = some value)
    (first : Encodes table ⟨value, field.type⟩ tree)
    (rest : MembersEncode table fields declared trees) :
    MembersEncode table fields (field :: declared) ((field.name, tree) :: trees) := by
  intro budget record agrees
  obtain ⟨here, below⟩ := List.forall_mem_cons.1 agrees
  have written := TypedValue.AreWritten.cons (first budget) (rest budget record below)
  rw [List.map_cons, Field.layout, Codec.encodeFields, here, TypedValue.ofMembers,
    List.filterMap_cons, found]
  exact written

/-- The record of all members, whose names are distinct. -/
theorem MembersEncode.record {fields : Record Value} {declared : List Field} {trees : Record Tree}
    (members : MembersEncode table fields declared trees)
    (keys : Record.keys trees = declared.map Field.name) (unique : (declared.map Field.name).Nodup)
    (budget : Nat) :
    TypedValue.AreWritten table budget (TypedValue.ofMembers fields declared)
      (Codec.encodeFields (Codec.encodeNamed (table.types.map TypeDef.layout) budget)
        (declared.map Field.layout) trees) :=
  members budget trees fun _ member => Record.get?_of_mem (keys ▸ unique) member

/-! ## Composite types -/

def ItemsEncode (table : Table) (items : List Value) (type : FieldType) (trees : List Tree) :
    Prop :=
  ∀ budget, TypedValue.AreWritten table budget (items.map fun value => ⟨value, type⟩)
    (.sequence (trees.map
      (Codec.encodeWith (Codec.encodeNamed (table.types.map TypeDef.layout) budget) type.layout)))

theorem encodes_vec {items : List Value} {item : FieldType} {trees : List Tree}
    (sized : trees.length = items.length) (each : ItemsEncode table items item trees) :
    Encodes table ⟨.list items, .vec item⟩ (.list trees) := by
  intro budget
  have own := Emission.limited_length items.length
  rw [bytesOfNat_eq] at own
  have written : TypedValue.IsWritten table budget ⟨.list items, .vec item⟩ _ :=
    TypedValue.isWritten_of_parts (Nat.zero_le budget) own (each budget)
  rw [← sized] at written
  exact written

theorem encodes_array {items : List Value} {item : FieldType} {length : Nat} {trees : List Tree}
    (sized : trees.length = length) (each : ItemsEncode table items item trees) :
    Encodes table ⟨.list items, .array item length⟩ (.list trees) := by
  intro budget
  have written : TypedValue.IsWritten table budget ⟨.list items, .array item length⟩ _ :=
    TypedValue.isWritten_of_parts_only (Nat.zero_le budget) rfl rfl (each budget)
  simp only [FieldType.layout, Codec.encodeWith, if_pos sized]
  exact written

theorem encodes_none (item : FieldType) :
    Encodes table ⟨.option none, .option item⟩ (.option none) :=
  fun _ => TypedValue.isWritten_own rfl rfl rfl rfl

theorem encodes_some {value : Value} {item : FieldType} {tree : Tree}
    (inner : Encodes table ⟨value, item⟩ tree) :
    Encodes table ⟨.option (some value), .option item⟩ (.option (some tree)) :=
  fun budget => TypedValue.isWritten_of_parts (Nat.zero_le budget)
    (TypedValue.limited_head rfl) (TypedValue.IsWritten.single (inner budget))

def PairsEncode (table : Table) (entries : List (Value × Value)) (key item : FieldType)
    (pairs : List (Tree × Tree)) : Prop :=
  ∀ budget, TypedValue.AreWritten table budget
    (entries.flatMap fun entry => [⟨entry.1, key⟩, ⟨entry.2, item⟩])
    (.sequence (pairs.map fun pair =>
      (Codec.encodeWith (Codec.encodeNamed (table.types.map TypeDef.layout) budget)
        key.layout pair.1).andThen
      (Codec.encodeWith (Codec.encodeNamed (table.types.map TypeDef.layout) budget)
        item.layout pair.2)))

theorem pairsEncode_cons {entry : Value × Value} {entries : List (Value × Value)}
    {key item : FieldType} {pair : Tree × Tree} {pairs : List (Tree × Tree)}
    (first : Encodes table ⟨entry.1, key⟩ pair.1) (second : Encodes table ⟨entry.2, item⟩ pair.2)
    (rest : PairsEncode table entries key item pairs) :
    PairsEncode table (entry :: entries) key item (pair :: pairs) := by
  intro budget
  have both :=
    TypedValue.AreWritten.cons (first budget) (TypedValue.IsWritten.single (second budget))
  exact both.append (rest budget)

theorem encodes_map {entries : List (Value × Value)} {key item : FieldType}
    {pairs : List (Tree × Tree)} (sized : pairs.length = entries.length)
    (each : PairsEncode table entries key item pairs) :
    Encodes table ⟨.map entries, .hashMap key item⟩ (.map pairs) := by
  intro budget
  have own := Emission.limited_length entries.length
  rw [bytesOfNat_eq] at own
  have written : TypedValue.IsWritten table budget ⟨.map entries, .hashMap key item⟩ _ :=
    TypedValue.isWritten_of_parts (Nat.zero_le budget) own (each budget)
  rw [← sized] at written
  exact written

theorem encodes_struct {name : String} {declared : List Field} {fields : Record Value}
    {trees : Record Tree} (known : table.body? name = some (.struct declared))
    (unique : (declared.map Field.name).Nodup)
    (keys : Record.keys trees = declared.map Field.name)
    (members : MembersEncode table fields declared trees) :
    Encodes table ⟨.struct name fields, .defined name⟩ (.record trees) := by
  intro budget
  cases budget with
  | zero => exact TypedValue.isWritten_zero _ _ _
  | succ budget =>
    have written := members.record keys unique budget
    have parts : TypedValue.parts table ⟨.struct name fields, .defined name⟩ =
        TypedValue.ofMembers fields declared := by
      simp only [TypedValue.parts, known]
    rw [← parts] at written
    have whole : TypedValue.IsWritten table (budget + 1) ⟨.struct name fields, .defined name⟩ _ :=
      TypedValue.isWritten_of_parts_only (Nat.le_add_left 1 budget) rfl rfl written
    rw [FieldType.layout, Codec.encodeWith, Codec.encodeNamed_succ budget known]
    exact whole

def PayloadEncodes (table : Table) (payload : Payload Value) (shape : Shape)
    (trees : Record Tree) : Prop :=
  ∃ fields, TypedValue.ofPayload payload shape = TypedValue.ofMembers fields shape.members ∧
    Record.keys trees = shape.members.map Field.name ∧
    MembersEncode table fields shape.members trees

theorem encodes_enum {name kind : String} {variants : List Variant} {tag : UInt8}
    {variant : Variant} {payload : Payload Value} {trees : Record Tree}
    (known : table.body? name = some (.enum variants))
    (chosen : Convert.findVariant name variants kind = .ok (tag.toNat, variant))
    (unique : (variant.shape.members.map Field.name).Nodup)
    (carried : PayloadEncodes table payload variant.shape trees) :
    Encodes table ⟨.enum name kind tag payload, .defined name⟩
      (.variant kind (.record trees)) := by
  intro budget
  obtain ⟨position, found⟩ := Convert.findVariant_eq_ok.1 chosen
  obtain ⟨fields, members, keys, written⟩ := carried
  cases budget with
  | zero => exact TypedValue.isWritten_zero _ _ _
  | succ budget =>
    have carried := written.record keys unique budget
    have parts : TypedValue.parts table ⟨.enum name kind tag payload, .defined name⟩ =
        TypedValue.ofMembers fields variant.shape.members := by
      simp only [TypedValue.parts, known, found, members]
    rw [← parts] at carried
    have own : (Codec.encodeTag tag.toNat).Limited (Emission.TooLong 0)
        (TypedValue.head table ⟨.enum name kind tag payload, .defined name⟩) := by
      rw [Codec.encodeTag_toNat, ← TypedValue.head_enum known position payload]
      exact TypedValue.limited_head rfl
    have whole : TypedValue.IsWritten table (budget + 1)
        ⟨.enum name kind tag payload, .defined name⟩ _ :=
      TypedValue.isWritten_of_parts (Nat.le_add_left 1 budget) own carried
    rw [FieldType.layout, Codec.encodeWith, Codec.encodeNamed_succ budget known, TypeBody.layout,
      Tree.variant]
    simp only [Codec.encodeWith, Codec.encodeVariant_layouts position found, Nat.zero_add]
    exact whole

/- Follows the derivation of the tree. The budget stays general all the way down, since the parts
of a definition are written with one name less than the definition itself. -/
mutual

theorem encodes_of_hasTree (names : table.HasNames) {value : Value} {type : FieldType}
    {tree : Tree} : HasTree table value type tree → Encodes table ⟨value, type⟩ tree
  | .bool _ => fun _ => TypedValue.isWritten_own rfl rfl rfl rfl
  | .unsigned bound => encodes_unsigned bound
  | .signed bound => encodes_signed bound
  | @HasTree.single _ x _ => encodes_single x
  | .double x => encodes_double x
  | .string s => encodes_string s
  | .bytes b => encodes_bytes b
  | .publicKey key => encodes_publicKey key
  | .vec items => encodes_vec (length_of_haveTrees items) (itemsEncode_of_haveTrees names items)
  | .array sized items =>
    encodes_array ((length_of_haveTrees items).trans sized) (itemsEncode_of_haveTrees names items)
  | .none item => encodes_none item
  | .some inner => encodes_some (encodes_of_hasTree names inner)
  | .map pairs =>
    encodes_map (length_of_pairsHaveTrees pairs) (pairsEncode_of_pairsHaveTrees names pairs)
  | .struct known _ members =>
    encodes_struct known (names.of_body? known).distinct (keys_of_membersHaveTrees members)
      (membersEncode_of_membersHaveTrees names members)
  | .enum known chosen carried =>
    encodes_enum known chosen (names.distinct_of_findVariant known chosen)
      (payloadEncodes_of_payloadHasTrees names carried)

theorem itemsEncode_of_haveTrees (names : table.HasNames) {items : List Value} {type : FieldType}
    {trees : List Tree} : HaveTrees table items type trees → ItemsEncode table items type trees
  | .nil => fun _ => TypedValue.areWritten_nil
  | .cons first rest => fun budget =>
    TypedValue.AreWritten.cons (encodes_of_hasTree names first budget)
      (itemsEncode_of_haveTrees names rest budget)

theorem pairsEncode_of_pairsHaveTrees (names : table.HasNames) {entries : List (Value × Value)}
    {key item : FieldType} {pairs : List (Tree × Tree)} :
    PairsHaveTrees table entries key item pairs → PairsEncode table entries key item pairs
  | .nil => fun _ => TypedValue.areWritten_nil
  | .cons first second rest =>
    pairsEncode_cons (encodes_of_hasTree names first) (encodes_of_hasTree names second)
      (pairsEncode_of_pairsHaveTrees names rest)

theorem membersEncode_of_membersHaveTrees (names : table.HasNames) {fields : Record Value}
    {declared : List Field} {trees : Record Tree} :
    MembersHaveTrees table fields declared trees → MembersEncode table fields declared trees
  | .nil => membersEncode_nil _
  | .cons found first rest =>
    membersEncode_cons found (encodes_of_hasTree names first)
      (membersEncode_of_membersHaveTrees names rest)

theorem payloadEncodes_of_payloadHasTrees (names : table.HasNames) {payload : Payload Value}
    {shape : Shape} {trees : Record Tree} :
    PayloadHasTrees table payload shape trees → PayloadEncodes table payload shape trees
  | .empty => ⟨[], rfl, rfl, membersEncode_nil []⟩
  | .named _ members =>
    ⟨_, rfl, keys_of_membersHaveTrees members, membersEncode_of_membersHaveTrees names members⟩
  | .tuple sized members => by
    refine ⟨_, ?_, keys_of_membersHaveTrees members,
      membersEncode_of_membersHaveTrees names members⟩
    rw [members_tuple, TypedValue.ofMembers_elementsFrom sized (holdsFrom_keyedFrom 0 _)]
    rfl

end

end Value

end WireSchema
