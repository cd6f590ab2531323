import Mathlib.Tactic.NormNum
import WireSchema.Proofs.Convert.Belongs

/-! Types of values. `HasType` is read off the declarations alone: it mentions neither the tree that
a value is written as nor the order in which a conversion looks at it. The values that have a type
are those that the conversion accepts. -/

namespace WireSchema

namespace Width

theorem containsNat_iff_lt_pow {width : Width} {n : Nat} :
    width.containsNat n = true ↔ n < 2 ^ (8 * width.bytes) := by
  rw [containsNat_iff, pow_mul]
  rfl

theorem containsInt_iff_lt_pow {width : Width} {i : Int} :
    width.containsInt i = true ↔
      -2 ^ (8 * width.bytes - 1) ≤ i ∧ i < 2 ^ (8 * width.bytes - 1) := by
  rw [containsInt_iff]
  cases width <;> norm_num [bytes]

end Width

namespace Value

mutual

inductive HasType (table : Table) : Value → FieldType → Prop
  | bool (b : Bool) : HasType table (.bool b) (.primitive .bool)
  | unsigned {width : Width} {n : Nat} (bound : n < 2 ^ (8 * width.bytes)) :
      HasType table (.unsigned n) (.primitive (.unsigned width))
  | signed {width : Width} {i : Int} (least : -2 ^ (8 * width.bytes - 1) ≤ i)
      (bound : i < 2 ^ (8 * width.bytes - 1)) :
      HasType table (.signed i) (.primitive (.signed width))
  | single {x : Binary64} (exact : x.isNaN = true ∨ x.toSingle = x) :
      HasType table (.float x) (.primitive .single)
  | double (x : Binary64) : HasType table (.float x) (.primitive .double)
  | string (s : String) : HasType table (.string s) (.primitive .string)
  | bytes (b : List UInt8) : HasType table (.bytes b) (.primitive .bytes)
  | publicKey (key : PublicKey) : HasType table (.publicKey key) (.primitive .publicKey)
  | vec {values : List Value} {item : FieldType}
      (items : ∀ value ∈ values, HasType table value item) :
      HasType table (.list values) (.vec item)
  | array {values : List Value} {item : FieldType} {length : Nat} (sized : values.length = length)
      (items : ∀ value ∈ values, HasType table value item) :
      HasType table (.list values) (.array item length)
  | none (item : FieldType) : HasType table (.option none) (.option item)
  | some {value : Value} {item : FieldType} (inner : HasType table value item) :
      HasType table (.option (some value)) (.option item)
  | map {entries : List (Value × Value)} {key item : FieldType}
      (keys : ∀ entry ∈ entries, HasType table entry.1 key)
      (items : ∀ entry ∈ entries, HasType table entry.2 item) :
      HasType table (.map entries) (.hashMap key item)
  | struct {name : String} {declared : List Field} {fields : Record Value}
      (known : table.body? name = some (.struct declared))
      (members : FieldsHaveTypes table fields declared) :
      HasType table (.struct name fields) (.defined name)
  | enum {name kind : String} {variants : List Variant} {tag : UInt8} {variant : Variant}
      {payload : Payload Value} (known : table.body? name = some (.enum variants))
      (declared : variants[tag.toNat]? = some variant) (named : variant.name = kind)
      (carried : PayloadHasTypes table payload variant.shape) :
      HasType table (.enum name kind tag payload) (.defined name)

/-- A record with exactly the declared fields. -/
inductive FieldsHaveTypes (table : Table) : Record Value → List Field → Prop
  | intro {fields : Record Value} {declared : List Field}
      (exact : ∀ key, key ∈ Record.keys fields ↔ key ∈ declared.map Field.name)
      (typed : ∀ field ∈ declared, ∀ value, Record.get? fields field.name = some value →
        HasType table value field.type) :
      FieldsHaveTypes table fields declared

inductive PayloadHasTypes (table : Table) : Payload Value → Shape → Prop
  | empty : PayloadHasTypes table .empty .empty
  | named {fields : Record Value} {declared : List Field}
      (members : FieldsHaveTypes table fields declared) :
      PayloadHasTypes table (.named fields) (.named declared)
  | tuple {items : List Value} {types : List FieldType} (sized : items.length = types.length)
      (typed : ∀ (position : Nat) value type, items[position]? = some value →
        types[position]? = some type → HasType table value type) :
      PayloadHasTypes table (.tuple items) (.tuple types)

end

variable {table : Table}

/-! ## From types to trees -/

/-- Kinds are distinct, so that the position of a variant is the only one that its kind has. -/
theorem findVariant_eq_ok_iff_getElem? {name kind : String} {variants : List Variant}
    {position : Nat} {variant : Variant} (distinct : (variants.map Variant.name).Nodup) :
    Convert.findVariant name variants kind = .ok (position, variant) ↔
      variants[position]? = some variant ∧ variant.name = kind := by
  constructor
  · intro chosen
    obtain ⟨index, -⟩ := Convert.findVariant_eq_ok.1 chosen
    obtain ⟨inside, named, -⟩ := List.findIdx?_eq_some_iff_getElem.1 index
    obtain rfl : variants[position].name = kind := by simpa using named
    have here := List.getElem?_eq_getElem inside
    have same := (findVariant_of_getElem? distinct here).symm.trans chosen
    rw [here, (Prod.mk.inj (Except.ok.inj same)).2]
    exact ⟨rfl, rfl⟩
  · rintro ⟨declared, rfl⟩
    exact findVariant_of_getElem? distinct declared

/-- What is in a record, each at its declaration. -/
theorem exists_trees_of_fields {fields : Record Value} {declared : List Field}
    (exact : ∀ key, key ∈ Record.keys fields ↔ key ∈ declared.map Field.name)
    (typed : ∀ field ∈ declared, ∀ value, Record.get? fields field.name = some value →
      Belongs table value field.type) :
    ∃ trees, MembersHaveTrees table fields declared trees := by
  refine exists_membersHaveTrees.2 fun field member => ?_
  have present := (exact field.name).2 (List.mem_map_of_mem member)
  cases found : Record.get? fields field.name with
  | none => exact absurd present ((Record.get?_eq_none _ _).1 found)
  | some value => exact ⟨value, rfl, typed field member value found⟩

theorem exists_trees_of_items {items : List Value} {types : List FieldType}
    (sized : items.length = types.length)
    (typed : ∀ (position : Nat) value type, items[position]? = some value →
      types[position]? = some type → Belongs table value type) :
    ∃ trees, MembersHaveTrees table (keyedFrom 0 items) (Shape.tuple types).members trees := by
  refine exists_membersHaveTrees.2 fun field member => ?_
  rw [Shape.members, List.mem_mapIdx] at member
  obtain ⟨position, inside, rfl⟩ := member
  have here := List.getElem?_eq_getElem (sized ▸ inside : position < items.length)
  refine ⟨items[position], ?_, typed position _ _ here (List.getElem?_eq_getElem inside)⟩
  have found := get?_keyedFrom 0 position items
  rwa [Nat.zero_add, here] at found

/- Follows the derivation of the type. -/
mutual

theorem belongs_of_hasType (names : table.HasNames) {value : Value} {type : FieldType} :
    HasType table value type → Belongs table value type
  | .bool b => ⟨_, .bool b⟩
  | .unsigned bound => ⟨_, .unsigned (Width.containsNat_iff_lt_pow.2 bound)⟩
  | .signed least bound => ⟨_, .signed (Width.containsInt_iff_lt_pow.2 ⟨least, bound⟩)⟩
  | .single exact => ⟨_, .single exact⟩
  | .double x => ⟨_, .double x⟩
  | .string s => ⟨_, .string s⟩
  | .bytes b => ⟨_, .bytes b⟩
  | .publicKey key => ⟨_, .publicKey key⟩
  | .vec items => belongs_vec fun value member => belongs_of_hasType names (items value member)
  | .array sized items =>
    belongs_array sized fun value member => belongs_of_hasType names (items value member)
  | .none item => belongs_none item
  | .some inner => belongs_some (belongs_of_hasType names inner)
  | .map keys items => belongs_map fun entry member =>
    ⟨belongs_of_hasType names (keys entry member), belongs_of_hasType names (items entry member)⟩
  | .struct known (.intro exact typed) => by
    obtain ⟨trees, has⟩ := exists_trees_of_fields exact fun field member value found =>
      belongs_of_hasType names (typed field member value found)
    exact ⟨_, .struct known (fun key => (exact key).1) has⟩
  | .enum known declared named carried => by
    obtain ⟨-, kinds, -⟩ := names.of_body? known
    obtain ⟨trees, has⟩ := trees_of_payloadHasTypes names carried
    exact ⟨_, .enum known
      ((findVariant_eq_ok_iff_getElem? kinds.distinct).2 ⟨declared, named⟩) has⟩

theorem trees_of_payloadHasTypes (names : table.HasNames) {payload : Payload Value}
    {shape : Shape} :
    PayloadHasTypes table payload shape → ∃ trees, PayloadHasTrees table payload shape trees
  | .empty => ⟨_, .empty⟩
  | .named (.intro exact typed) => by
    obtain ⟨trees, has⟩ := exists_trees_of_fields exact fun field member value found =>
      belongs_of_hasType names (typed field member value found)
    exact ⟨_, .named (fun key => (exact key).1) has⟩
  | .tuple sized typed => by
    obtain ⟨trees, has⟩ := exists_trees_of_items sized fun position value type here declared =>
      belongs_of_hasType names (typed position value type here declared)
    exact ⟨_, .tuple sized.symm has⟩

end

/-! ## From trees to types -/

/-- A record in which every declared field is found, and nothing else. -/
theorem fieldsHaveTypes {fields : Record Value} {declared : List Field}
    (complete : ∀ key ∈ Record.keys fields, key ∈ declared.map Field.name)
    (each : ∀ field ∈ declared, ∃ value, Record.get? fields field.name = some value ∧
      HasType table value field.type) : FieldsHaveTypes table fields declared := by
  refine .intro (fun key => ⟨complete key, fun present => ?_⟩) fun field member value found => ?_
  · obtain ⟨field, member, rfl⟩ := List.mem_map.1 present
    obtain ⟨value, found, -⟩ := each field member
    exact Record.mem_keys_of_get? found
  · obtain ⟨value', found', typed⟩ := each field member
    exact Option.some.inj (found'.symm.trans found) ▸ typed

theorem typed_of_keyed {items : List Value} {types : List FieldType}
    (each : ∀ field ∈ (Shape.tuple types).members, ∃ value,
      Record.get? (keyedFrom 0 items) field.name = some value ∧ HasType table value field.type)
    (position : Nat) (value : Value) (type : FieldType) (here : items[position]? = some value)
    (declared : types[position]? = some type) : HasType table value type := by
  have member : (⟨tupleKey position, type⟩ : Field) ∈ (Shape.tuple types).members := by
    obtain ⟨inside, rfl⟩ := List.getElem?_eq_some_iff.1 declared
    exact List.mem_mapIdx.2 ⟨position, inside, rfl⟩
  obtain ⟨value', found, typed⟩ := each _ member
  have same := get?_keyedFrom 0 position items
  rw [Nat.zero_add, found, here] at same
  exact Option.some.inj same ▸ typed

mutual

theorem hasType_of_hasTree (names : table.HasNames) {value : Value} {type : FieldType}
    {tree : Tree} : HasTree table value type tree → HasType table value type
  | .bool b => .bool b
  | .unsigned bound => .unsigned (Width.containsNat_iff_lt_pow.1 bound)
  | .signed bound =>
    .signed (Width.containsInt_iff_lt_pow.1 bound).1 (Width.containsInt_iff_lt_pow.1 bound).2
  | .single exact => .single exact
  | .double x => .double x
  | .string s => .string s
  | .bytes b => .bytes b
  | .publicKey key => .publicKey key
  | .vec items => .vec (haveTypes_of_haveTrees names items)
  | .array sized items => .array sized (haveTypes_of_haveTrees names items)
  | .none item => .none item
  | .some inner => .some (hasType_of_hasTree names inner)
  | .map pairs =>
    .map (fun entry member => (haveTypes_of_pairsHaveTrees names pairs entry member).1)
      fun entry member => (haveTypes_of_pairsHaveTrees names pairs entry member).2
  | .struct known complete members =>
    .struct known (fieldsHaveTypes complete (haveTypes_of_membersHaveTrees names members))
  | .enum known chosen carried => by
    obtain ⟨-, kinds, -⟩ := names.of_body? known
    obtain ⟨declared, named⟩ := (findVariant_eq_ok_iff_getElem? kinds.distinct).1 chosen
    exact .enum known declared named (payloadHasTypes_of_payloadHasTrees names carried)
termination_by structural has => has

theorem haveTypes_of_haveTrees (names : table.HasNames) {items : List Value} {type : FieldType}
    {trees : List Tree} :
    HaveTrees table items type trees → ∀ value ∈ items, HasType table value type
  | .nil => by simp
  | .cons first rest => List.forall_mem_cons.2
    ⟨hasType_of_hasTree names first, haveTypes_of_haveTrees names rest⟩
termination_by structural has => has

theorem haveTypes_of_pairsHaveTrees (names : table.HasNames) {entries : List (Value × Value)}
    {key item : FieldType} {pairs : List (Tree × Tree)} :
    PairsHaveTrees table entries key item pairs →
      ∀ entry ∈ entries, HasType table entry.1 key ∧ HasType table entry.2 item
  | .nil => by simp
  | .cons first second rest => List.forall_mem_cons.2
    ⟨⟨hasType_of_hasTree names first, hasType_of_hasTree names second⟩,
      haveTypes_of_pairsHaveTrees names rest⟩
termination_by structural has => has

theorem haveTypes_of_membersHaveTrees (names : table.HasNames) {fields : Record Value}
    {declared : List Field} {trees : Record Tree} :
    MembersHaveTrees table fields declared trees →
      ∀ field ∈ declared, ∃ value, Record.get? fields field.name = some value ∧
        HasType table value field.type
  | .nil => by simp
  | .cons found first rest => List.forall_mem_cons.2
    ⟨⟨_, found, hasType_of_hasTree names first⟩, haveTypes_of_membersHaveTrees names rest⟩
termination_by structural has => has

theorem payloadHasTypes_of_payloadHasTrees (names : table.HasNames) {payload : Payload Value}
    {shape : Shape} {trees : Record Tree} :
    PayloadHasTrees table payload shape trees → PayloadHasTypes table payload shape
  | .empty => .empty
  | .named complete members =>
    .named (fieldsHaveTypes complete (haveTypes_of_membersHaveTrees names members))
  | .tuple sized members =>
    .tuple sized.symm (typed_of_keyed (haveTypes_of_membersHaveTrees names members))
termination_by structural has => has

end

theorem belongs_iff_hasType (names : table.HasNames) {value : Value} {type : FieldType} :
    Belongs table value type ↔ HasType table value type :=
  ⟨fun ⟨_, has⟩ => hasType_of_hasTree names has, belongs_of_hasType names⟩

end Value

end WireSchema
