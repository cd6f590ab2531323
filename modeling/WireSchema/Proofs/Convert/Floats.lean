import WireSchema.Proofs.Convert.OfJson
import WireSchema.Proofs.Convert.Collapse

/-! Types from which no float is reached. Their values have no floats, and where there are none
it does not matter how floats are compared. -/

namespace WireSchema

variable {table : Table}

namespace Value

def isFloat : Value → Bool
  | float _ => true
  | _ => false

section

variable {test : Value → Bool}

end

/-! ## Comparison -/

mutual

/-- Without floats in it, a value is equal to another one however floats are compared. -/
theorem sameBy_of_without {floats floats' : Binary64 → Binary64 → Bool} : (value : Value) →
    ∀ other, sameBy floats value other = true → other.contains isFloat = false →
      sameBy floats' value other = true
  | .bool _, .bool _, same, _ => same
  | .unsigned _, .unsigned _, same, _ => same
  | .signed _, .signed _, same, _ => same
  | .string _, .string _, same, _ => same
  | .bytes _, .bytes _, same, _ => same
  | .publicKey _, .publicKey _, same, _ => same
  | .list items, .list others, same, plain =>
    sameItems_of_without items others same (Bool.or_eq_false_iff.1 plain).2
  | .option none, .option none, _, _ => rfl
  | .option (some value), .option (some other), same, plain =>
    sameBy_of_without value other same (Bool.or_eq_false_iff.1 plain).2
  | .map entries, .map others, same, plain =>
    sameEntries_of_without entries others same (Bool.or_eq_false_iff.1 plain).2
  | .struct _ fields, .struct _ others, same, plain => by
    obtain ⟨head, below⟩ := Bool.and_eq_true_iff.1 same
    exact Bool.and_eq_true_iff.2 ⟨head,
      sameFields_of_without fields others below (Bool.or_eq_false_iff.1 plain).2⟩
  | .enum _ _ _ .empty, .enum _ _ _ .empty, same, _ => same
  | .enum _ _ _ (.named fields), .enum _ _ _ (.named others), same, plain => by
    obtain ⟨head, below⟩ := Bool.and_eq_true_iff.1 same
    exact Bool.and_eq_true_iff.2 ⟨head,
      sameFields_of_without fields others below (Bool.or_eq_false_iff.1 plain).2⟩
  | .enum _ _ _ (.tuple items), .enum _ _ _ (.tuple others), same, plain => by
    obtain ⟨head, below⟩ := Bool.and_eq_true_iff.1 same
    exact Bool.and_eq_true_iff.2 ⟨head,
      sameItems_of_without items others below (Bool.or_eq_false_iff.1 plain).2⟩
  | .float _, .float _, _, plain => by cases plain
termination_by structural value => value

theorem sameItems_of_without {floats floats' : Binary64 → Binary64 → Bool} :
    (items : List Value) → ∀ others, sameItems floats items others = true →
      itemsContain isFloat others = false → sameItems floats' items others = true
  | [], [], _, _ => rfl
  | item :: rest, other :: others, same, plain => by
    obtain ⟨here, below⟩ := Bool.and_eq_true_iff.1 same
    obtain ⟨herePlain, belowPlain⟩ := Bool.or_eq_false_iff.1 plain
    exact Bool.and_eq_true_iff.2 ⟨sameBy_of_without item other here herePlain,
      sameItems_of_without rest others below belowPlain⟩
termination_by structural items => items

theorem sameEntries_of_without {floats floats' : Binary64 → Binary64 → Bool} :
    (entries : List (Value × Value)) → ∀ others, sameEntries floats entries others = true →
      entriesContain isFloat others = false → sameEntries floats' entries others = true
  | [], [], _, _ => rfl
  | (key, item) :: rest, (otherKey, other) :: others, same, plain => by
    obtain ⟨both, below⟩ := Bool.and_eq_true_iff.1 same
    obtain ⟨keys, items⟩ := Bool.and_eq_true_iff.1 both
    obtain ⟨bothPlain, belowPlain⟩ := Bool.or_eq_false_iff.1 plain
    obtain ⟨keyPlain, itemPlain⟩ := Bool.or_eq_false_iff.1 bothPlain
    exact Bool.and_eq_true_iff.2 ⟨Bool.and_eq_true_iff.2
      ⟨sameBy_of_without key otherKey keys keyPlain, sameBy_of_without item other items itemPlain⟩,
      sameEntries_of_without rest others below belowPlain⟩
termination_by structural entries => entries

theorem sameFields_of_without {floats floats' : Binary64 → Binary64 → Bool} :
    (fields : List (String × Value)) → ∀ others, sameFields floats fields others = true →
      fieldsContain isFloat others = false → sameFields floats' fields others = true
  | [], _, _, _ => rfl
  | (key, value) :: rest, others, same, plain => by
    unfold sameFields at same ⊢
    split at same
    next other found =>
      obtain ⟨here, below⟩ := Bool.and_eq_true_iff.1 same
      have inside := fieldsContain_eq_false.1 plain _ (Record.mem_of_get? found)
      exact Bool.and_eq_true_iff.2 ⟨sameBy_of_without value other here inside,
        sameFields_of_without rest others below plain⟩
    next => cases same
termination_by structural fields => fields

end

end Value

end WireSchema
