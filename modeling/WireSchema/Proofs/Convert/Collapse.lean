import WireSchema.Value

/-! Options inside options. JSON has one `null` for an option that is absent and for a present one
whose content is absent; a value collapses to what can still be told apart. -/

namespace WireSchema

namespace Value

mutual

def contains (test : Value → Bool) : Value → Bool
  | list items => test (list items) || itemsContain test items
  | option (some value) => test (option (some value)) || contains test value
  | map entries => test (map entries) || entriesContain test entries
  | struct name fields => test (struct name fields) || fieldsContain test fields
  | enum name kind tag (.named fields) =>
    test (enum name kind tag (.named fields)) || fieldsContain test fields
  | enum name kind tag (.tuple items) =>
    test (enum name kind tag (.tuple items)) || itemsContain test items
  | value => test value
termination_by structural value => value

def itemsContain (test : Value → Bool) : List Value → Bool
  | [] => false
  | value :: rest => contains test value || itemsContain test rest
termination_by structural items => items

def entriesContain (test : Value → Bool) : List (Value × Value) → Bool
  | [] => false
  | (key, value) :: rest =>
    contains test key || contains test value || entriesContain test rest
termination_by structural entries => entries

def fieldsContain (test : Value → Bool) : List (String × Value) → Bool
  | [] => false
  | (_, value) :: rest => contains test value || fieldsContain test rest
termination_by structural fields => fields

end

theorem itemsContain_eq_any (test : Value → Bool) (items : List Value) :
    itemsContain test items = items.any (contains test) :=
  eq_any_of_cons rfl (fun _ _ => rfl) items

theorem fieldsContain_eq_any (test : Value → Bool) (fields : Record Value) :
    fieldsContain test fields = fields.any fun field => field.2.contains test :=
  eq_any_of_cons rfl (fun _ _ => rfl) fields

theorem fieldsContain_eq_false {test : Value → Bool} {fields : Record Value} :
    fieldsContain test fields = false ↔ ∀ entry ∈ fields, entry.2.contains test = false := by
  simp only [fieldsContain_eq_any, List.any_eq_false, Bool.not_eq_true]

def isNonFinite : Value → Bool
  | float x => !x.isFinite
  | _ => false

def isSomeOfNone : Value → Bool
  | option (some (option none)) => true
  | _ => false

theorem isSomeOfNone_some {value : Value} (filled : value ≠ option none) :
    (option (some value)).isSomeOfNone = false := by
  unfold isSomeOfNone
  split
  next same =>
    cases same
    exact absurd rfl filled
  next => rfl

mutual

/-- An option is absent if what is in it is an absent option, from the inside out. -/
def collapse : Value → Value
  | list items => list (collapseItems items)
  | option (some value) =>
    match collapse value with
    | option none => option none
    | inner => option (some inner)
  | map entries => map (collapseEntries entries)
  | struct name fields => struct name (collapseFields fields)
  | enum name kind tag (.named fields) => enum name kind tag (.named (collapseFields fields))
  | enum name kind tag (.tuple items) => enum name kind tag (.tuple (collapseItems items))
  | value => value
termination_by structural value => value

def collapseItems : List Value → List Value
  | [] => []
  | value :: rest => collapse value :: collapseItems rest
termination_by structural items => items

def collapseEntries : List (Value × Value) → List (Value × Value)
  | [] => []
  | (key, value) :: rest => (collapse key, collapse value) :: collapseEntries rest
termination_by structural entries => entries

def collapseFields : List (String × Value) → Record Value
  | [] => []
  | (key, value) :: rest => (key, collapse value) :: collapseFields rest
termination_by structural fields => fields

end

theorem collapseFields_eq_map (fields : Record Value) :
    collapseFields fields = fields.map fun entry => (entry.1, collapse entry.2) :=
  eq_map_of_cons rfl (fun _ _ => rfl) fields

theorem get?_collapseFields (fields : Record Value) (key : String) :
    Record.get? (collapseFields fields) key = (Record.get? fields key).map collapse := by
  rw [collapseFields_eq_map, Record.get?_map]

theorem length_collapseFields (fields : Record Value) :
    (collapseFields fields).length = fields.length := by
  rw [collapseFields_eq_map, List.length_map]

theorem collapse_some_of_none {value : Value} (absent : value.collapse = option none) :
    (option (some value)).collapse = option none := by
  simp only [collapse, absent]

theorem collapse_some {value : Value} (present : value.collapse ≠ option none) :
    (option (some value)).collapse = option (some value.collapse) := by
  simp only [collapse]

mutual

/-- Nothing collapses without an option to collapse. -/
theorem collapse_eq_self : (value : Value) → value.contains isSomeOfNone = false →
    value.collapse = value
  | list items, plain => by
    obtain ⟨-, below⟩ := Bool.or_eq_false_iff.1 plain
    exact congrArg list (collapseItems_eq_self items below)
  | option none, _ => rfl
  | option (some value), plain => by
    obtain ⟨here, below⟩ := Bool.or_eq_false_iff.1 plain
    have same := collapse_eq_self value below
    have present : value.collapse ≠ option none := by
      rw [same]
      rintro rfl
      cases here
    rw [collapse_some present, same]
  | map entries, plain => by
    obtain ⟨-, below⟩ := Bool.or_eq_false_iff.1 plain
    exact congrArg map (collapseEntries_eq_self entries below)
  | struct name fields, plain => by
    obtain ⟨-, below⟩ := Bool.or_eq_false_iff.1 plain
    exact congrArg (struct name) (collapseFields_eq_self fields below)
  | enum _ _ _ .empty, _ => rfl
  | enum name kind tag (.named fields), plain => by
    obtain ⟨-, below⟩ := Bool.or_eq_false_iff.1 plain
    exact congrArg (enum name kind tag ∘ Payload.named) (collapseFields_eq_self fields below)
  | enum name kind tag (.tuple items), plain => by
    obtain ⟨-, below⟩ := Bool.or_eq_false_iff.1 plain
    exact congrArg (enum name kind tag ∘ Payload.tuple) (collapseItems_eq_self items below)
  | bool _, _ => rfl
  | unsigned _, _ => rfl
  | signed _, _ => rfl
  | float _, _ => rfl
  | string _, _ => rfl
  | bytes _, _ => rfl
  | publicKey _, _ => rfl
termination_by structural value => value

theorem collapseItems_eq_self : (items : List Value) → itemsContain isSomeOfNone items = false →
    collapseItems items = items
  | [], _ => rfl
  | value :: rest, plain => by
    obtain ⟨here, below⟩ := Bool.or_eq_false_iff.1 plain
    rw [collapseItems, collapse_eq_self value here, collapseItems_eq_self rest below]
termination_by structural items => items

theorem collapseEntries_eq_self : (entries : List (Value × Value)) →
    entriesContain isSomeOfNone entries = false → collapseEntries entries = entries
  | [], _ => rfl
  | (key, value) :: rest, plain => by
    obtain ⟨both, below⟩ := Bool.or_eq_false_iff.1 plain
    obtain ⟨first, second⟩ := Bool.or_eq_false_iff.1 both
    rw [collapseEntries, collapse_eq_self key first, collapse_eq_self value second,
      collapseEntries_eq_self rest below]
termination_by structural entries => entries

theorem collapseFields_eq_self : (fields : List (String × Value)) →
    fieldsContain isSomeOfNone fields = false → collapseFields fields = fields
  | [], _ => rfl
  | (key, value) :: rest, plain => by
    obtain ⟨here, below⟩ := Bool.or_eq_false_iff.1 plain
    rw [collapseFields, collapse_eq_self value here, collapseFields_eq_self rest below]
termination_by structural fields => fields

end

end Value

end WireSchema
