import WireSchema.Proofs.Convert.Decodes

/-! Values that belong to a type, which are those that have a tree. A value belongs if its parts
do. -/

namespace WireSchema

open Outcome

namespace Value

variable {table : Table}

def Belongs (table : Table) (value : Value) (type : FieldType) : Prop :=
  ∃ tree, HasTree table value type tree

def MemberBelongs (table : Table) (field : Field) (entry : String × Value) : Prop :=
  entry.1 = field.name ∧ Belongs table entry.2 field.type

/-! ## Composite types -/

theorem haveTrees_of_belong {items : List Value} {type : FieldType}
    (each : ∀ item ∈ items, Belongs table item type) :
    ∃ trees, HaveTrees table items type trees := by
  induction items with
  | nil => exact ⟨[], .nil⟩
  | cons item rest ih =>
    obtain ⟨first, others⟩ := List.forall_mem_cons.1 each
    obtain ⟨tree, has⟩ := first
    obtain ⟨trees, haveTrees⟩ := ih others
    exact ⟨tree :: trees, .cons has haveTrees⟩

theorem belong_of_haveTrees {items : List Value} {type : FieldType} {trees : List Tree}
    (has : HaveTrees table items type trees) : ∀ item ∈ items, Belongs table item type := by
  induction items generalizing trees with
  | nil => simp
  | cons item rest ih =>
    cases has with
    | cons first others => exact List.forall_mem_cons.2 ⟨⟨_, first⟩, ih others⟩

theorem belongs_vec {items : List Value} {item : FieldType}
    (each : ∀ value ∈ items, Belongs table value item) :
    Belongs table (.list items) (.vec item) := by
  obtain ⟨trees, haveTrees⟩ := haveTrees_of_belong each
  exact ⟨.list trees, .vec haveTrees⟩

theorem belongs_array {items : List Value} {item : FieldType} {length : Nat}
    (sized : items.length = length) (each : ∀ value ∈ items, Belongs table value item) :
    Belongs table (.list items) (.array item length) := by
  obtain ⟨trees, haveTrees⟩ := haveTrees_of_belong each
  exact ⟨.list trees, .array sized haveTrees⟩

theorem belongs_none (item : FieldType) : Belongs table (.option none) (.option item) :=
  ⟨.option none, .none item⟩

theorem belongs_some {value : Value} {item : FieldType} (inner : Belongs table value item) :
    Belongs table (.option (some value)) (.option item) := by
  obtain ⟨tree, has⟩ := inner
  exact ⟨.option (some tree), .some has⟩

theorem belongs_map {entries : List (Value × Value)} {key item : FieldType}
    (each : ∀ entry ∈ entries, Belongs table entry.1 key ∧ Belongs table entry.2 item) :
    Belongs table (.map entries) (.hashMap key item) := by
  suffices ∃ pairs, PairsHaveTrees table entries key item pairs by
    obtain ⟨pairs, haveTrees⟩ := this
    exact ⟨.map pairs, .map haveTrees⟩
  induction entries with
  | nil => exact ⟨[], .nil⟩
  | cons entry rest ih =>
    obtain ⟨⟨keyBelongs, itemBelongs⟩, others⟩ := List.forall_mem_cons.1 each
    obtain ⟨first, firstHas⟩ := keyBelongs
    obtain ⟨second, secondHas⟩ := itemBelongs
    obtain ⟨pairs, haveTrees⟩ := ih others
    exact ⟨(first, second) :: pairs, .cons firstHas secondHas haveTrees⟩

theorem belong_of_pairsHaveTrees {entries : List (Value × Value)} {key item : FieldType}
    {pairs : List (Tree × Tree)} (has : PairsHaveTrees table entries key item pairs) :
    ∀ entry ∈ entries, Belongs table entry.1 key ∧ Belongs table entry.2 item := by
  induction entries generalizing pairs with
  | nil => simp
  | cons entry rest ih =>
    cases has with
    | cons first second others =>
      exact List.forall_mem_cons.2 ⟨⟨⟨_, first⟩, _, second⟩, ih others⟩

theorem exists_membersHaveTrees {fields : Record Value} {declared : List Field} :
    (∃ trees, MembersHaveTrees table fields declared trees) ↔
      ∀ field ∈ declared, ∃ value, Record.get? fields field.name = some value ∧
        Belongs table value field.type := by
  induction declared with
  | nil => exact ⟨fun _ => by simp, fun _ => ⟨[], .nil⟩⟩
  | cons field rest ih =>
    rw [List.forall_mem_cons, ← ih]
    constructor
    · rintro ⟨trees, has⟩
      cases has with
      | cons found first others => exact ⟨⟨_, found, _, first⟩, _, others⟩
    · rintro ⟨⟨value, found, tree, first⟩, trees, others⟩
      exact ⟨_, .cons found first others⟩

theorem keys_of_memberBelongs {declared : List Field} {entries : Record Value}
    (each : List.Forall₂ (MemberBelongs table) declared entries) :
    Record.keys entries = declared.map Field.name :=
  Convert.keys_eq_names each fun _ _ => And.left

theorem membersHaveTrees_of_belong {declared : List Field} {entries : Record Value}
    (each : List.Forall₂ (MemberBelongs table) declared entries)
    (unique : (declared.map Field.name).Nodup) :
    ∃ trees, MembersHaveTrees table entries declared trees := by
  suffices ∀ record : Record Value, (∀ entry ∈ entries, Record.get? record entry.1 = some entry.2) →
      ∃ trees, MembersHaveTrees table record declared trees by
    exact this entries fun _ member =>
      Record.get?_of_mem (keys_of_memberBelongs each ▸ unique) member
  intro record agrees
  clear unique
  induction each with
  | nil => exact ⟨[], .nil⟩
  | @cons field entry declared entries first _ ih =>
    obtain ⟨named, tree, has⟩ := first
    obtain ⟨here, below⟩ := List.forall_mem_cons.1 agrees
    obtain ⟨trees, haveTrees⟩ := ih below
    exact ⟨(field.name, tree) :: trees, .cons (named ▸ here) has haveTrees⟩

theorem belongs_struct {name : String} {declared : List Field} {entries : Record Value}
    (known : table.body? name = some (.struct declared))
    (unique : (declared.map Field.name).Nodup)
    (each : List.Forall₂ (MemberBelongs table) declared entries) :
    Belongs table (.struct name entries) (.defined name) := by
  obtain ⟨trees, haveTrees⟩ := membersHaveTrees_of_belong each unique
  have keys := keys_of_memberBelongs each
  exact ⟨.record trees, .struct known (fun key member => keys ▸ member) haveTrees⟩

def Carries (table : Table) (payload : Payload Value) (shape : Shape) : Prop :=
  ∃ entries, List.Forall₂ (MemberBelongs table) shape.members entries ∧
    payload = carry shape entries

/-- Positions of variants fit a byte. -/
theorem toNat_tagOf {name kind : String} {variants : List Variant} {position : Nat}
    {variant : Variant} (few : variants.length ≤ maxVariants)
    (chosen : Convert.findVariant name variants kind = .ok (position, variant)) :
    (Convert.tagOf position).toNat = position := by
  have found := (Convert.findVariant_eq_ok.1 chosen).1
  have inside : position < variants.length := (List.findIdx?_eq_some_iff_getElem.1 found).1
  exact UInt8.toNat_ofNat_of_lt' (Nat.lt_of_lt_of_le inside few)

theorem belongs_enum (names : table.HasNames) {name kind : String} {variants : List Variant}
    {position : Nat} {variant : Variant} {payload : Payload Value}
    (known : table.body? name = some (.enum variants))
    (chosen : Convert.findVariant name variants kind = .ok (position, variant))
    (carries : Carries table payload variant.shape) :
    Belongs table (.enum name kind (Convert.tagOf position) payload) (.defined name) := by
  obtain ⟨few, -⟩ := names.of_body? known
  obtain ⟨entries, each, rfl⟩ := carries
  obtain ⟨trees, haveTrees⟩ :=
    membersHaveTrees_of_belong each (names.distinct_of_findVariant known chosen)
  rw [← toNat_tagOf few chosen] at chosen
  exact ⟨_, .enum known chosen (payloadHasTrees_carry (keys_of_memberBelongs each) haveTrees)⟩

end Value

end WireSchema
