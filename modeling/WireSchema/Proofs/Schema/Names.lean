import Mathlib.Data.List.Nodup
import WireSchema.Proofs.Outcome
import WireSchema.Schema.Table

/-! Names in checked tables. Each scope is walked once, with the names that were met before. -/

namespace WireSchema

open Outcome

structure AreNames (names : List String) : Prop where
  identifiers : ∀ name ∈ names, isIdentifier name = true
  distinct : names.Nodup

def Shape.HasNames : Shape → Prop
  | .named fields => AreNames (fields.map Field.name)
  | _ => True

def TypeBody.HasNames : TypeBody → Prop
  | .struct fields => AreNames (fields.map Field.name)
  | .enum variants => variants.length ≤ maxVariants ∧ AreNames (variants.map Variant.name) ∧
      ∀ variant ∈ variants, variant.shape.HasNames

theorem areNames_nil : AreNames [] :=
  ⟨by simp, List.nodup_nil⟩

theorem areNames_cons {name : String} {names : List String} :
    AreNames (name :: names) ↔ isIdentifier name = true ∧ name ∉ names ∧ AreNames names := by
  constructor
  · rintro ⟨identifiers, distinct⟩
    obtain ⟨first, rest⟩ := List.forall_mem_cons.1 identifiers
    obtain ⟨fresh, others⟩ := List.nodup_cons.1 distinct
    exact ⟨first, fresh, rest, others⟩
  · rintro ⟨first, fresh, rest, others⟩
    exact ⟨List.forall_mem_cons.2 ⟨first, rest⟩, List.nodup_cons.2 ⟨fresh, others⟩⟩

/-- A walk along a scope: the names ahead of it stay clear of those it has met. -/
theorem areNames_cons_clear {name : String} {names seen : List String} :
    (AreNames (name :: names) ∧ ∀ other ∈ name :: names, other ∉ seen) ↔
      isIdentifier name = true ∧ ¬seen.contains name = true ∧
        AreNames names ∧ ∀ other ∈ names, other ∉ name :: seen := by
  rw [areNames_cons, List.forall_mem_cons, List.contains_iff_mem]
  constructor
  · rintro ⟨⟨valid, fresh, rest⟩, first, others⟩
    refine ⟨valid, first, rest, fun other member => ?_⟩
    rw [List.mem_cons, not_or]
    exact ⟨fun same => fresh (same ▸ member), others other member⟩
  · rintro ⟨valid, first, rest, others⟩
    refine ⟨⟨valid, fun member => others name member List.mem_cons_self, rest⟩, first, ?_⟩
    exact fun other member met => others other member (List.mem_cons_of_mem _ met)

namespace Table

theorem checkIdentifier_eq_ok {name : String} :
    checkIdentifier name = .ok () ↔ isIdentifier name = true := by
  unfold checkIdentifier
  split
  next valid => simp [valid]
  next invalid => simp [invalid]

theorem checkScope_eq_ok {name : α → String} {before after : α → Except SchemaError Unit}
    {duplicate : String → SchemaError} {seen : List String} {items : List α} :
    checkScope name before after duplicate seen items = .ok () ↔
      (AreNames (items.map name) ∧ ∀ other ∈ items.map name, other ∉ seen) ∧
        ∀ item ∈ items, before item = .ok () ∧ after item = .ok () := by
  induction items generalizing seen with
  | nil => simp [checkScope, areNames_nil]
  | cons item rest ih =>
    rw [List.map_cons, areNames_cons_clear, List.forall_mem_cons]
    simp only [checkScope, then_eq_ok, guard_eq_ok, checkIdentifier_eq_ok, ih]
    tauto

theorem checkFields_eq_ok {scope : String} {fields : List Field} :
    checkFields scope fields = .ok () ↔ AreNames (fields.map Field.name) := by
  simp [checkFields, checkScope_eq_ok, unchecked]

theorem checkShape_eq_ok {scope : String} {shape : Shape} :
    checkShape scope shape = .ok () ↔ shape.HasNames := by
  cases shape with
  | empty => simp [checkShape, Shape.HasNames]
  | named fields => simp [checkShape, checkFields_eq_ok, Shape.HasNames]
  | tuple types => simp [checkShape, Shape.HasNames]

theorem checkBody_eq_ok {name : String} {body : TypeBody} :
    checkBody name body = .ok () ↔ body.HasNames := by
  cases body with
  | struct fields => simp [checkBody, checkFields_eq_ok, TypeBody.HasNames]
  | enum variants =>
    simp [checkBody, guard_eq_ok, checkVariants, checkScope_eq_ok, checkShape_eq_ok, unchecked,
      TypeBody.HasNames]

structure HasNames (table : Table) : Prop where
  types : AreNames table.names
  bodies : ∀ type ∈ table.types, type.body.HasNames

theorem checkTypes_eq_ok {types : List TypeDef} :
    checkTypes types = .ok () ↔ (Table.mk types).HasNames := by
  simp only [checkTypes, checkScope_eq_ok, checkBody_eq_ok, unchecked, and_true, List.not_mem_nil,
    not_false_eq_true, implies_true]
  exact ⟨fun ⟨names, bodies⟩ => ⟨names, bodies⟩, fun names => ⟨names.types, names.bodies⟩⟩

theorem ofTypes_eq_ok {types : List TypeDef} {table : Table}
    (accepted : ofTypes types = .ok table) :
    table = ⟨types⟩ ∧ table.HasNames := by
  rw [ofTypes, then_eq_ok, checkTypes_eq_ok] at accepted
  obtain ⟨names, rest⟩ := accepted
  suffices same : table = ⟨types⟩ by
    subst same
    exact ⟨rfl, names⟩
  simp only at rest
  split at rest
  next => cases rest
  next =>
    obtain ⟨-, done⟩ := then_eq_ok.1 rest
    exact (pure_eq_ok.1 done).symm

theorem find?_eq_some {table : Table} {name : String} {type : TypeDef}
    (found : table.find? name = some type) : type ∈ table.types ∧ type.name = name :=
  ⟨List.mem_of_find?_eq_some found, by simpa using List.find?_some found⟩

theorem mem_namesOf {table : Table} {given : TypeBody → List String} {owner name : String}
    (named : name ∈ table.namesOf given owner) :
    ∃ type ∈ table.types, type.name = owner ∧ name ∈ given type.body := by
  unfold namesOf at named
  split at named
  next type found =>
    obtain ⟨member, same⟩ := find?_eq_some found
    exact ⟨type, member, same, named⟩
  next => cases named

/-- A name that is declared is the name of one type. -/
theorem HasNames.find?_of_mem {table : Table} (names : table.HasNames) {type : TypeDef}
    (member : type ∈ table.types) : table.find? type.name = some type := by
  cases found : table.find? type.name with
  | none => simpa using List.find?_eq_none.1 found type member
  | some other =>
    obtain ⟨otherMember, same⟩ := find?_eq_some found
    rw [List.inj_on_of_nodup_map names.types.distinct otherMember member same]

/-- Definitions with distinct names are found under them. -/
theorem HasNames.mem_namesOf_iff {table : Table} (names : table.HasNames)
    {given : TypeBody → List String} {owner name : String} :
    name ∈ table.namesOf given owner ↔
      ∃ type ∈ table.types, type.name = owner ∧ name ∈ given type.body := by
  constructor
  · exact mem_namesOf
  · rintro ⟨type, member, rfl, inside⟩
    rw [namesOf, names.find?_of_mem member]
    exact inside

end Table

/-! ## Members of payloads -/

theorem tupleKey_inj {position position' : Nat} :
    tupleKey position = tupleKey position' ↔ position = position' := by
  constructor
  · intro same
    have digits : Nat.toDigits 10 position = Nat.toDigits 10 position' := by
      have texts := congrArg String.toList same
      simpa [tupleKey, ToString.toString] using texts
    rw [← Nat.ofDigitChars_toDigits (b := 10) (by decide) (by decide) (n := position), digits,
      Nat.ofDigitChars_toDigits (by decide) (by decide)]
  · rintro rfl
    rfl

theorem Shape.HasNames.distinct_members {shape : Shape} (names : shape.HasNames) :
    (shape.members.map Field.name).Nodup := by
  cases shape with
  | empty => exact List.nodup_nil
  | named fields => exact AreNames.distinct names
  | tuple types =>
    have keys : (Shape.tuple types).members.map Field.name =
        (List.range types.length).map tupleKey := by
      apply List.ext_getElem
      · simp [members]
      · intro position _ _
        simp [members]
    rw [keys]
    exact List.nodup_range.map fun _ _ => tupleKey_inj.1

theorem isIdentifier_tupleKey (position : Nat) : isIdentifier (tupleKey position) = true := by
  have chars : (tupleKey position).toList = '_' :: Nat.toDigits 10 position := by
    simp [tupleKey, ToString.toString]
  have digits : (Nat.toDigits 10 position).all isIdentifierRest = true := by
    refine List.all_eq_true.2 fun c member => ?_
    have digit : c.isDigit = true := Nat.isDigit_of_mem_toDigits (by decide) (by decide) member
    simp [isIdentifierRest, Char.isAlphanum, digit]
  rw [isIdentifier, chars]
  exact Bool.and_eq_true_iff.2 ⟨by decide, digits⟩

theorem Shape.HasNames.isIdentifier_of_mem {shape : Shape} (names : shape.HasNames) :
    ∀ field ∈ shape.members, isIdentifier field.name = true := by
  intro field member
  cases shape with
  | empty => cases member
  | named fields => exact AreNames.identifiers names _ (List.mem_map_of_mem member)
  | tuple types =>
    obtain ⟨position, bound, rfl⟩ := List.mem_mapIdx.1 member
    exact isIdentifier_tupleKey position

end WireSchema
