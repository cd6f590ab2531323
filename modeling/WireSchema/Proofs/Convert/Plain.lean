import WireSchema.Proofs.Convert.Collapse
import WireSchema.Proofs.Convert.OfJson

/-! Plain values: the ones that JSON can tell apart. Whatever is read from JSON is plain, as each
declared member is read once and no `null` is put in a present option. -/

namespace WireSchema

namespace Value

variable {table : Table}

structure IsPlain (value : Value) : Prop where
  distinct : value.hasDistinctKeys = true
  told : value.contains isSomeOfNone = false

theorem isPlain_of_hasTree {p : Primitive} {value : Value} {tree : Tree}
    (has : HasTree table value (.primitive p) tree) : value.IsPlain := by
  cases has <;> exact ⟨rfl, rfl⟩

theorem isPlain_some {value : Value} (present : value ≠ .option none) (plain : value.IsPlain) :
    (option (some value)).IsPlain :=
  ⟨plain.distinct, Bool.or_eq_false_iff.2 ⟨isSomeOfNone_some present, plain.told⟩⟩

theorem items_plain {items : List Value} (each : ∀ item ∈ items, item.IsPlain) :
    itemsHaveDistinctKeys items = true ∧ itemsContain isSomeOfNone items = false := by
  induction items with
  | nil => exact ⟨rfl, rfl⟩
  | cons item rest ih =>
    obtain ⟨here, below⟩ := List.forall_mem_cons.1 each
    obtain ⟨distinct, told⟩ := ih below
    exact ⟨Bool.and_eq_true_iff.2 ⟨here.distinct, distinct⟩,
      Bool.or_eq_false_iff.2 ⟨here.told, told⟩⟩

theorem isPlain_list {items : List Value} (each : ∀ item ∈ items, item.IsPlain) :
    (list items).IsPlain :=
  ⟨(items_plain each).1, (items_plain each).2⟩

theorem isPlain_map {entries : List (Value × Value)}
    (each : ∀ entry ∈ entries, entry.1.IsPlain ∧ entry.2.IsPlain) : (map entries).IsPlain := by
  suffices entriesHaveDistinctKeys entries = true ∧ entriesContain isSomeOfNone entries = false from
    ⟨this.1, this.2⟩
  induction entries with
  | nil => exact ⟨rfl, rfl⟩
  | cons entry rest ih =>
    obtain ⟨⟨key, item⟩, below⟩ := List.forall_mem_cons.1 each
    obtain ⟨distinct, told⟩ := ih below
    have bothDistinct := Bool.and_eq_true_iff.2 ⟨key.distinct, item.distinct⟩
    have bothTold := Bool.or_eq_false_iff.2 ⟨key.told, item.told⟩
    exact ⟨Bool.and_eq_true_iff.2 ⟨bothDistinct, distinct⟩,
      Bool.or_eq_false_iff.2 ⟨bothTold, told⟩⟩

section

variable {declared : List Field} {entries : Record Value}

theorem plain_of_members
    (each : List.Forall₂ (HoldsMember fun value _ => value.IsPlain) declared entries) :
    ∀ entry ∈ entries, entry.2.IsPlain := by
  induction each with
  | nil => simp
  | cons first _ ih => exact List.forall_mem_cons.2 ⟨first.2, ih⟩

theorem fields_plain
    (each : List.Forall₂ (HoldsMember fun value _ => value.IsPlain) declared entries)
    (unique : (declared.map Field.name).Nodup) :
    (decide (Record.keys entries).Nodup && fieldsHaveDistinctKeys entries) = true ∧
      fieldsContain isSomeOfNone entries = false := by
  have plain := plain_of_members each
  have keys : (Record.keys entries).Nodup :=
    (Convert.keys_eq_names each fun _ _ => And.left) ▸ unique
  refine ⟨Bool.and_eq_true_iff.2 ⟨decide_eq_true keys, ?_⟩,
    fieldsContain_eq_false.2 fun entry member => (plain entry member).told⟩
  clear each keys
  induction entries with
  | nil => rfl
  | cons entry rest ih =>
    obtain ⟨here, below⟩ := List.forall_mem_cons.1 plain
    exact Bool.and_eq_true_iff.2 ⟨here.distinct, ih below⟩

theorem isPlain_struct {name : String}
    (each : List.Forall₂ (HoldsMember fun value _ => value.IsPlain) declared entries)
    (unique : (declared.map Field.name).Nodup) : (struct name entries).IsPlain :=
  ⟨(fields_plain each unique).1, (fields_plain each unique).2⟩

theorem isPlain_enum {name kind : String} {tag : UInt8} {shape : Shape}
    (each : List.Forall₂ (HoldsMember fun value _ => value.IsPlain) shape.members entries)
    (unique : (shape.members.map Field.name).Nodup) :
    (enum name kind tag (carry shape entries)).IsPlain := by
  cases shape with
  | empty => exact ⟨rfl, rfl⟩
  | named declared => exact ⟨(fields_plain each unique).1, (fields_plain each unique).2⟩
  | tuple types =>
    have items : ∀ item ∈ entries.map Prod.snd, item.IsPlain :=
      List.forall_mem_map.2 (plain_of_members each)
    exact ⟨(items_plain items).1, (items_plain items).2⟩

end

theorem isKept_plain (names : table.HasNames) : IsKept table fun value _ => value.IsPlain where
  primitive made := by
    obtain ⟨tree, has⟩ : Belongs table _ _ := belongs_of_valueOfJson made
    exact isPlain_of_hasTree has
  absent _ := ⟨rfl, rfl⟩
  filled := isPlain_some
  vec := isPlain_list
  array _ := isPlain_list
  map := isPlain_map
  struct known each := isPlain_struct each (names.of_body? known).distinct
  enum known chosen carried := by
    obtain ⟨entries, each, rfl⟩ := carried
    exact isPlain_enum each (names.distinct_of_findVariant known chosen)

end Value

end WireSchema
