import WireSchema.Proofs.Convert.HasTree

/-! Values that are equal but for the order of fields have one tree: the declaration of a record
decides in which order its fields are written. -/

namespace WireSchema

namespace Value

variable {table : Table}

theorem get?_of_sameFields {floats : Binary64 → Binary64 → Bool} {fields others : Record Value}
    {key : String} {value : Value} (same : sameFields floats fields others = true)
    (found : Record.get? fields key = some value) :
    ∃ other, Record.get? others key = some other ∧ sameBy floats value other = true := by
  induction fields with
  | nil => cases found
  | cons field rest ih =>
    obtain ⟨key', value'⟩ := field
    unfold sameFields at same
    split at same
    next other here =>
      obtain ⟨first, below⟩ := Bool.and_eq_true_iff.1 same
      rw [Record.get?_cons] at found
      split at found
      next equal =>
        subst equal
        exact ⟨other, here, Option.some.inj found ▸ first⟩
      next => exact ih below found
    next => cases same

theorem sameFields_keyedFrom {floats : Binary64 → Binary64 → Bool} {items others : List Value}
    (same : sameItems floats items others = true) :
    sameFields floats (keyedFrom 0 items) (keyedFrom 0 others) = true := by
  suffices ∀ (record : Record Value) position, HoldsFrom record position others →
      sameFields floats (keyedFrom position items) record = true from
    this _ 0 (holdsFrom_keyedFrom 0 others)
  intro record position holds
  induction items generalizing others position with
  | nil => rfl
  | cons item rest ih =>
    cases others with
    | nil => cases same
    | cons other remaining =>
      obtain ⟨first, below⟩ := Bool.and_eq_true_iff.1 same
      rw [keyedFrom, sameFields, holds.first]
      exact Bool.and_eq_true_iff.2 ⟨first, ih below (position + 1) holds.rest⟩

theorem kind_of_identical {name name' kind kind' : String} {tag tag' : UInt8}
    {payload payload' : Payload Value}
    (alike : (enum name kind tag payload).identical (enum name' kind' tag' payload') = true) :
    kind = kind' := by
  cases payload <;> cases payload' <;> simp_all [identical, sameBy]

theorem not_identical_enum_struct {name name' kind : String} {tag : UInt8} {payload : Payload Value}
    {fields : Record Value} :
    (enum name kind tag payload).identical (struct name' fields) ≠ true := by
  cases payload <;> simp [identical, sameBy]

mutual

/-- At one type, identical values have the same tree. -/
theorem tree_of_identical {value value' : Value} {type : FieldType} {tree tree' : Tree} :
    HasTree table value type tree → HasTree table value' type tree' →
      value.identical value' = true → tree = tree'
  | .bool _, .bool _, alike => congrArg Tree.bool (eq_of_beq alike)
  | .unsigned _, .unsigned _, alike => congrArg Tree.unsigned (eq_of_beq alike)
  | .signed _, .signed _, alike => congrArg Tree.signed (eq_of_beq alike)
  | .single _, .single _, alike => congrArg Tree.float (eq_of_beq alike)
  | .double _, .double _, alike => congrArg Tree.float (eq_of_beq alike)
  | .string _, .string _, alike => congrArg Tree.string (eq_of_beq alike)
  | .bytes _, .bytes _, alike => congrArg Tree.bytes (eq_of_beq alike)
  | .publicKey _, .publicKey _, alike => congrArg (Tree.bytes ∘ PublicKey.bytes) (eq_of_beq alike)
  | .vec items, .vec items', alike => congrArg Tree.list (trees_of_identical items items' alike)
  | .array _ items, .array _ items', alike =>
    congrArg Tree.list (trees_of_identical items items' alike)
  | .none _, .none _, _ => rfl
  | .none _, .some _, alike => by cases alike
  | .some _, .none _, alike => by cases alike
  | .some inner, .some inner', alike =>
    congrArg (Tree.option ∘ some) (tree_of_identical inner inner' alike)
  | .map pairs, .map pairs', alike => congrArg Tree.map (pairs_of_identical pairs pairs' alike)
  | .struct known _ members, .struct known' _ members', alike => by
    cases known.symm.trans known'
    exact congrArg Tree.record
      (members_of_identical members members' (Bool.and_eq_true_iff.1 alike).2)
  | .struct _ _ _, .enum _ _ _, alike => by cases alike
  | .enum _ _ _, .struct _ _ _, alike => absurd alike not_identical_enum_struct
  | .enum known chosen carried, .enum known' chosen' carried', alike => by
    cases known.symm.trans known'
    cases kind_of_identical alike
    obtain ⟨-, rfl⟩ := Prod.mk.inj (Except.ok.inj (chosen.symm.trans chosen'))
    exact congrArg (Tree.variant _ ∘ Tree.record) (payload_of_identical carried carried' alike)
termination_by structural has => has

theorem trees_of_identical {items items' : List Value} {type : FieldType}
    {trees trees' : List Tree} :
    HaveTrees table items type trees → HaveTrees table items' type trees' →
      sameItems (· == ·) items items' = true → trees = trees'
  | .nil, .nil, _ => rfl
  | .nil, .cons _ _, alike => by cases alike
  | .cons _ _, .nil, alike => by cases alike
  | .cons first rest, .cons first' rest', alike => by
    obtain ⟨here, below⟩ := Bool.and_eq_true_iff.1 alike
    exact congrArg₂ List.cons (tree_of_identical first first' here)
      (trees_of_identical rest rest' below)
termination_by structural has => has

theorem pairs_of_identical {entries entries' : List (Value × Value)} {key item : FieldType}
    {pairs pairs' : List (Tree × Tree)} :
    PairsHaveTrees table entries key item pairs → PairsHaveTrees table entries' key item pairs' →
      sameEntries (· == ·) entries entries' = true → pairs = pairs'
  | .nil, .nil, _ => rfl
  | .nil, .cons _ _ _, alike => by cases alike
  | .cons _ _ _, .nil, alike => by cases alike
  | .cons first second rest, .cons first' second' rest', alike => by
    obtain ⟨both, below⟩ := Bool.and_eq_true_iff.1 alike
    obtain ⟨keys, values⟩ := Bool.and_eq_true_iff.1 both
    exact congrArg₂ List.cons
      (Prod.ext (tree_of_identical first first' keys) (tree_of_identical second second' values))
      (pairs_of_identical rest rest' below)
termination_by structural has => has

theorem members_of_identical {fields fields' : Record Value} {declared : List Field}
    {trees trees' : Record Tree} :
    MembersHaveTrees table fields declared trees → MembersHaveTrees table fields' declared trees' →
      sameFields (· == ·) fields fields' = true → trees = trees'
  | .nil, .nil, _ => rfl
  | .cons found first rest, .cons found' first' rest', alike => by
    obtain ⟨other, here, same⟩ := get?_of_sameFields alike found
    cases here.symm.trans found'
    rw [tree_of_identical first first' same, members_of_identical rest rest' alike]
termination_by structural has => has

theorem payload_of_identical {payload payload' : Payload Value} {shape : Shape}
    {trees trees' : Record Tree} {name name' kind kind' : String} {tag tag' : UInt8} :
    PayloadHasTrees table payload shape trees → PayloadHasTrees table payload' shape trees' →
      (enum name kind tag payload).identical (enum name' kind' tag' payload') = true →
      trees = trees'
  | .empty, .empty, _ => rfl
  | .named _ members, .named _ members', alike =>
    members_of_identical members members' (Bool.and_eq_true_iff.1 alike).2
  | .tuple _ members, .tuple _ members', alike =>
    members_of_identical members members'
      (sameFields_keyedFrom (Bool.and_eq_true_iff.1 alike).2)
termination_by structural has => has

end

end Value

end WireSchema
