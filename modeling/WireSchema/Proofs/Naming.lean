import WireSchema.Naming
import WireSchema.Proofs.Schema.WellFormed

/-! The characters of names in emitted source, and the file stems that are left of module
identifiers once their marks are gone. -/

namespace WireSchema

/-- `[A-Za-z0-9_]` -/
def IsWord (c : Char) : Prop :=
  IsInitial c ∨ ('0' ≤ c ∧ c ≤ '9')

instance : DecidablePred IsWord := fun _ => decidable_of_iff _ isIdentifierRest_iff

theorem IsIdentifier.isWord {name : String} (identifier : IsIdentifier name) {c : Char}
    (member : c ∈ name.toList) : IsWord c := by
  obtain ⟨first, rest, same, initial, others⟩ := identifier
  rw [same] at member
  obtain rfl | below := List.mem_cons.1 member
  · exact .inl initial
  · exact others c below

namespace Naming

theorem bounds_of_isUpper {c : Char} (upper : c.isUpper = true) :
    65 ≤ c.val.toNat ∧ c.val.toNat ≤ 90 := by
  have range : c.val ≥ 'A'.val ∧ c.val ≤ 'Z'.val := decide_eq_true_iff.1 upper
  exact ⟨UInt32.le_iff_toNat_le.1 range.1, UInt32.le_iff_toNat_le.1 range.2⟩

theorem bounds_of_isLower {c : Char} (lower : c.isLower = true) :
    97 ≤ c.val.toNat ∧ c.val.toNat ≤ 122 := by
  have range : 'a' ≤ c ∧ c ≤ 'z' := inRange_iff.1 lower
  exact ⟨UInt32.le_iff_toNat_le.1 range.1, UInt32.le_iff_toNat_le.1 range.2⟩

theorem bounds_of_isDigit {c : Char} (digit : c.isDigit = true) :
    48 ≤ c.val.toNat ∧ c.val.toNat ≤ 57 := by
  have range : '0' ≤ c ∧ c ≤ '9' := inRange_iff.1 digit
  exact ⟨UInt32.le_iff_toNat_le.1 range.1, UInt32.le_iff_toNat_le.1 range.2⟩

theorem toNat_toLower {c : Char} (upper : c.isUpper = true) :
    c.toLower.val.toNat = c.val.toNat + 32 := by
  obtain ⟨-, highest⟩ := bounds_of_isUpper upper
  refine (congrArg (fun c : Char => c.val.toNat) (dif_pos (decide_eq_true_iff.1 upper))).trans ?_
  show (c.val.toNat + 32) % 2 ^ 32 = c.val.toNat + 32
  omega

theorem toLower_eq_self {c : Char} (other : c.isUpper = false) : c.toLower = c :=
  dif_neg (decide_eq_false_iff_not.1 other)

theorem isInitial_toLower {c : Char} (upper : c.isUpper = true) : IsInitial c.toLower := by
  obtain ⟨lowest, highest⟩ := bounds_of_isUpper upper
  refine .inr (.inl ?_)
  rw [Char.le_def, Char.le_def, UInt32.le_iff_toNat_le, UInt32.le_iff_toNat_le,
    toNat_toLower upper]
  show 97 ≤ c.val.toNat + 32 ∧ c.val.toNat + 32 ≤ 122
  omega

theorem isWord_of_mem_snakeChars {previous : Option Char} {name : List Char}
    (word : ∀ c ∈ name, IsWord c) : ∀ c ∈ snakeChars previous name, IsWord c := by
  induction name generalizing previous with
  | nil => exact fun _ member => by cases member
  | cons first rest ih =>
    obtain ⟨here, others⟩ := List.forall_mem_cons.1 word
    have below := @ih (some first) others
    rw [snakeChars]
    split
    next upper =>
      have lowered : IsWord first.toLower := .inl (isInitial_toLower upper)
      split
      next => exact List.forall_mem_cons.2 ⟨.inl (.inr (.inr rfl)),
        List.forall_mem_cons.2 ⟨lowered, below⟩⟩
      next => exact List.forall_mem_cons.2 ⟨lowered, below⟩
    next => exact List.forall_mem_cons.2 ⟨here, below⟩

theorem stripRaw_of_word {ident : List Char} (word : ∀ c ∈ ident, IsWord c) :
    stripRaw ident = ident := by
  unfold stripRaw
  split
  next rest =>
    have mark := word '#' (List.mem_cons_of_mem _ List.mem_cons_self)
    exact absurd mark (by decide)
  next => rfl

theorem isWord_snakeCase {name : String} (identifier : IsIdentifier name) :
    ∀ c ∈ (snakeCase name).toList, IsWord c := by
  rw [snakeCase, String.toList_ofList]
  exact isWord_of_mem_snakeChars fun _ => identifier.isWord

/-- A stem is the name in snake case, unless that is a keyword without a raw form. -/
theorem fileStem_fieldIdent {name : String} (identifier : IsIdentifier name) :
    fileStem (fieldIdent name) =
      if pathKeywords.contains (snakeCase name) then snakeCase name ++ "_" else snakeCase name := by
  have word := isWord_snakeCase identifier
  rw [fieldIdent, escapeKeyword, fileStem]
  split
  next =>
    rw [stripRaw_of_word, String.ofList_toList]
    rw [String.toList_append]
    exact List.forall_mem_append.2 ⟨word, List.forall_mem_singleton.2 (.inl (.inr (.inr rfl)))⟩
  next =>
    split
    next =>
      rw [String.toList_append]
      exact String.ofList_toList
    next => rw [stripRaw_of_word word, String.ofList_toList]

theorem isWord_of_mem_fileStem {name : String} (identifier : IsIdentifier name) {c : Char}
    (member : c ∈ (fileStem (fieldIdent name)).toList) : IsWord c := by
  have word := isWord_snakeCase identifier
  rw [fileStem_fieldIdent identifier] at member
  split at member
  next =>
    rw [String.toList_append] at member
    obtain inside | mark := List.mem_append.1 member
    · exact word c inside
    · rw [List.mem_singleton.1 mark]
      exact .inl (.inr (.inr rfl))
  next => exact word c member

/-- Names that are no keyword without a raw form keep their stems. -/
theorem fileStem_eq_iff {name stem : String} (identifier : IsIdentifier name)
    (usable : stem ∉ pathKeywords) (unmarked : ∀ keyword ∈ pathKeywords, keyword ++ "_" ≠ stem) :
    fileStem (fieldIdent name) = stem ↔ snakeCase name = stem := by
  rw [fileStem_fieldIdent identifier]
  split
  next keyword =>
    have listed := List.contains_iff_mem.1 keyword
    exact iff_of_false (unmarked _ listed) fun same => usable (same ▸ listed)
  next => rfl

end Naming

end WireSchema
