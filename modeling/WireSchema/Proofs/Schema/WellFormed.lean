import WireSchema.Proofs.Schema.Containment

/-! Well-formed schemas: the rules that definitions obey, read off the definitions themselves. A
table is made of exactly the lists of definitions that obey them all. -/

namespace WireSchema

open Relation Outcome

/-! ## Identifiers -/

/-- `[A-Za-z_]` -/
def IsInitial (c : Char) : Prop :=
  ('A' ≤ c ∧ c ≤ 'Z') ∨ ('a' ≤ c ∧ c ≤ 'z') ∨ c = '_'

/-- `[A-Za-z_][A-Za-z0-9_]*` -/
def IsIdentifier (name : String) : Prop :=
  ∃ first rest, name.toList = first :: rest ∧ IsInitial first ∧
    ∀ c ∈ rest, IsInitial c ∨ ('0' ≤ c ∧ c ≤ '9')

/-- Membership of a class of characters that is a range. -/
theorem inRange_iff {c first last : Char} :
    (decide (c.val ≥ first.val) && decide (c.val ≤ last.val)) = true ↔ first ≤ c ∧ c ≤ last := by
  rw [Bool.and_eq_true, decide_eq_true_eq, decide_eq_true_eq, Char.le_def, Char.le_def]

theorem isIdentifierStart_iff {c : Char} : isIdentifierStart c = true ↔ IsInitial c := by
  have upper : c.isUpper = true ↔ 'A' ≤ c ∧ c ≤ 'Z' := decide_eq_true_iff
  have lower : c.isLower = true ↔ 'a' ≤ c ∧ c ≤ 'z' := inRange_iff
  show (c.isUpper || c.isLower || decide (c = '_')) = true ↔ _
  rw [IsInitial, Bool.or_eq_true, Bool.or_eq_true, decide_eq_true_eq, upper, lower, or_assoc]

theorem isIdentifierRest_iff {c : Char} :
    isIdentifierRest c = true ↔ IsInitial c ∨ ('0' ≤ c ∧ c ≤ '9') := by
  have digit : c.isDigit = true ↔ '0' ≤ c ∧ c ≤ '9' := inRange_iff
  show (c.isAlpha || c.isDigit || decide (c = '_')) = true ↔ _
  rw [← isIdentifierStart_iff, ← digit, isIdentifierStart, Bool.or_eq_true, Bool.or_eq_true,
    Bool.or_eq_true]
  exact or_right_comm

theorem isIdentifier_iff {name : String} : isIdentifier name = true ↔ IsIdentifier name := by
  unfold isIdentifier IsIdentifier
  cases name.toList with
  | nil => simp
  | cons c rest =>
    simp only [Bool.and_eq_true, List.all_eq_true, isIdentifierStart_iff, isIdentifierRest_iff]
    constructor
    · rintro ⟨start, others⟩
      exact ⟨c, rest, rfl, start, others⟩
    · rintro ⟨_, _, same, start, others⟩
      cases same
      exact ⟨start, others⟩

theorem areNames_iff {names : List String} :
    AreNames names ↔ (∀ name ∈ names, IsIdentifier name) ∧ names.Nodup := by
  constructor
  · intro are
    exact ⟨fun name member => isIdentifier_iff.1 (are.identifiers name member), are.distinct⟩
  · rintro ⟨identifiers, distinct⟩
    exact ⟨fun name member => isIdentifier_iff.2 (identifiers name member), distinct⟩

/-! ## Parts of definitions -/

namespace FieldType

inductive Mentions : FieldType → String → Prop where
  | defined (name : String) : Mentions (.defined name) name
  | vec : Mentions item name → Mentions (.vec item) name
  | option : Mentions item name → Mentions (.option item) name
  | array : Mentions item name → Mentions (.array item length) name
  | key : Mentions key name → Mentions (.hashMap key value) name
  | value : Mentions value name → Mentions (.hashMap key value) name

/-- A name is reached through fixed arrays only, and so its values stand in those of the type. -/
inductive Embeds : FieldType → String → Prop where
  | defined (name : String) : Embeds (.defined name) name
  | array : Embeds item name → Embeds (.array item length) name

theorem mem_references {type : FieldType} {name : String} :
    name ∈ type.references ↔ type.Mentions name := by
  constructor
  · intro member
    induction type with
    | primitive p => cases member
    | vec item ih => exact .vec (ih member)
    | option item ih => exact .option (ih member)
    | array item length ih => exact .array (ih member)
    | hashMap key value ihKey ihValue =>
      rcases List.mem_append.1 member with first | second
      · exact .key (ihKey first)
      · exact .value (ihValue second)
    | defined other =>
      rw [List.mem_singleton.1 member]
      exact .defined other
  · intro mentions
    induction mentions with
    | defined name => exact List.mem_singleton_self name
    | vec _ ih => exact ih
    | option _ ih => exact ih
    | array _ ih => exact ih
    | key _ ih => exact List.mem_append_left _ ih
    | value _ ih => exact List.mem_append_right _ ih

theorem mem_contained {type : FieldType} {name : String} :
    name ∈ type.contained ↔ type.Embeds name := by
  constructor
  · intro member
    induction type with
    | array item length ih => exact .array (ih member)
    | defined other =>
      rw [List.mem_singleton.1 member]
      exact .defined other
    | _ => cases member
  · intro embeds
    induction embeds with
    | defined name => exact List.mem_singleton_self name
    | array _ ih => exact ih

end FieldType

namespace TypeBody

inductive HasScope : TypeBody → List Field → Prop where
  | struct (fields : List Field) : HasScope (.struct fields) fields
  | variant {variant : Variant} : variant ∈ variants → variant.shape = .named fields →
    HasScope (.enum variants) fields

inductive HasPart : TypeBody → FieldType → Prop where
  | field {field : Field} : HasScope body fields → field ∈ fields → HasPart body field.type
  | element {variant : Variant} : variant ∈ variants → variant.shape = .tuple types →
    type ∈ types → HasPart (.enum variants) type

inductive Declares : TypeBody → String → Prop where
  | field {field : Field} : HasScope body fields → field ∈ fields → Declares body field.name
  | variant {variant : Variant} : variant ∈ variants → Declares (.enum variants) variant.name

theorem hasPart_of_mem_members {variants : List Variant} {variant : Variant} {field : Field}
    (declared : variant ∈ variants) (member : field ∈ variant.shape.members) :
    HasPart (.enum variants) field.type := by
  cases shape : variant.shape with
  | empty =>
    rw [shape] at member
    cases member
  | named fields =>
    rw [shape] at member
    exact .field (.variant declared shape) member
  | tuple types =>
    rw [shape] at member
    obtain ⟨position, bound, rfl⟩ := List.mem_mapIdx.1 member
    exact .element declared shape (List.getElem_mem bound)

theorem mem_positions_enum {variants : List Variant} {variant : Variant} {field : Field}
    (declared : variant ∈ variants) (member : field ∈ variant.shape.members) :
    field.type ∈ (enum variants).positions.map Prod.snd :=
  List.mem_map.2
    ⟨_, List.mem_flatMap.2 ⟨variant, declared, List.mem_map_of_mem member⟩, rfl⟩

theorem mem_positions {body : TypeBody} {type : FieldType} :
    type ∈ body.positions.map Prod.snd ↔ body.HasPart type := by
  constructor
  · intro member
    obtain ⟨position, inside, rfl⟩ := List.mem_map.1 member
    cases body with
    | struct fields =>
      obtain ⟨field, declared, rfl⟩ := List.mem_map.1 inside
      exact .field (.struct fields) declared
    | enum variants =>
      obtain ⟨variant, declared, below⟩ := List.mem_flatMap.1 inside
      obtain ⟨field, carried, rfl⟩ := List.mem_map.1 below
      exact hasPart_of_mem_members declared carried
  · intro part
    cases part with
    | field scope member =>
      cases scope with
      | struct fields => exact List.mem_map.2 ⟨_, List.mem_map_of_mem member, rfl⟩
      | variant declared shape =>
        apply mem_positions_enum declared
        rwa [shape]
    | element declared shape member =>
      obtain ⟨position, bound, rfl⟩ := List.mem_iff_getElem.1 member
      have carried : (⟨tupleKey position, _⟩ : Field) ∈ (Shape.tuple _).members :=
        List.mem_mapIdx.2 ⟨position, bound, rfl⟩
      rw [← shape] at carried
      exact mem_positions_enum declared carried

theorem mem_flatMap_positions {body : TypeBody} {given : FieldType → List String} {name : String} :
    (name ∈ body.positions.flatMap fun position => given position.2) ↔
      ∃ part, body.HasPart part ∧ name ∈ given part := by
  simp only [← mem_positions, List.mem_flatMap, List.mem_map, exists_exists_and_eq_and]

theorem mem_references {body : TypeBody} {name : String} :
    name ∈ body.references ↔ ∃ part, body.HasPart part ∧ part.Mentions name := by
  simp only [references, mem_flatMap_positions, FieldType.mem_references]

theorem mem_contained {body : TypeBody} {name : String} :
    name ∈ body.contained ↔ ∃ part, body.HasPart part ∧ part.Embeds name := by
  simp only [contained, mem_flatMap_positions, FieldType.mem_contained]

/-- The checks of one definition, told by scopes instead of by their order. -/
theorem hasNames_iff {body : TypeBody} :
    body.HasNames ↔ (∀ name, body.Declares name → IsIdentifier name) ∧
      (∀ fields, body.HasScope fields → (fields.map Field.name).Nodup) ∧
      ∀ variants, body = .enum variants →
        (variants.map Variant.name).Nodup ∧ variants.length ≤ maxVariants := by
  constructor
  · intro names
    have scopes : ∀ fields, body.HasScope fields → AreNames (fields.map Field.name) := by
      intro fields scope
      cases scope with
      | struct fields => exact names
      | variant declared shape =>
        have inside := names.2.2 _ declared
        rwa [shape] at inside
    refine ⟨fun name declares => ?_, fun fields scope => (scopes fields scope).distinct, ?_⟩
    · cases declares with
      | field scope member =>
        exact (areNames_iff.1 (scopes _ scope)).1 _ (List.mem_map_of_mem member)
      | variant declared =>
        exact (areNames_iff.1 names.2.1).1 _ (List.mem_map_of_mem declared)
    · rintro variants rfl
      exact ⟨names.2.1.distinct, names.1⟩
  · rintro ⟨identifiers, distinct, variants⟩
    have scopes : ∀ fields, body.HasScope fields → AreNames (fields.map Field.name) := by
      intro fields scope
      refine areNames_iff.2 ⟨fun name member => ?_, distinct fields scope⟩
      obtain ⟨field, declared, rfl⟩ := List.mem_map.1 member
      exact identifiers _ (.field scope declared)
    cases body with
    | struct fields => exact scopes fields (.struct fields)
    | enum all =>
      obtain ⟨unique, few⟩ := variants all rfl
      refine ⟨few, areNames_iff.2 ⟨fun name member => ?_, unique⟩, fun variant declared => ?_⟩
      · obtain ⟨variant, declared, rfl⟩ := List.mem_map.1 member
        exact identifiers _ (.variant declared)
      · cases shape : variant.shape with
        | named fields => exact scopes fields (.variant declared shape)
        | _ => trivial

end TypeBody

/-! ## The rules -/

/-- The values of a definition hold values of another, without indirection. -/
def Encloses (types : List TypeDef) (owner name : String) : Prop :=
  ∃ type ∈ types, type.name = owner ∧ ∃ part, type.body.HasPart part ∧ part.Embeds name

structure WellFormed (types : List TypeDef) : Prop where
  identifiers : ∀ type ∈ types, IsIdentifier type.name ∧
    ∀ name, type.body.Declares name → IsIdentifier name
  distinctTypes : (types.map TypeDef.name).Nodup
  distinctFields : ∀ type ∈ types, ∀ fields, type.body.HasScope fields →
    (fields.map Field.name).Nodup
  distinctVariants : ∀ type ∈ types, ∀ variants, type.body = .enum variants →
    (variants.map Variant.name).Nodup
  fewVariants : ∀ type ∈ types, ∀ variants, type.body = .enum variants → variants.length ≤ 256
  declared : ∀ type ∈ types, ∀ part, type.body.HasPart part → ∀ name, part.Mentions name →
    ∃ other ∈ types, other.name = name
  acyclic : ∀ name, ¬TransGen (Encloses types) name name

namespace Table

theorem isClosed_iff {types : List TypeDef} :
    (Table.mk types).IsClosed ↔ ∀ type ∈ types, ∀ part, type.body.HasPart part →
      ∀ name, part.Mentions name → ∃ other ∈ types, other.name = name := by
  simp only [IsClosed, TypeBody.mem_references, names, List.mem_map]
  constructor
  · intro closed type member part inside name mentions
    exact closed type member name ⟨part, inside, mentions⟩
  · rintro closed type member name ⟨part, inside, mentions⟩
    exact closed type member part inside name mentions

/-- Containment in a table is what it is among its definitions. -/
theorem contains_iff {types : List TypeDef} (names : (Table.mk types).HasNames)
    {owner name : String} : (Table.mk types).Contains owner name ↔ Encloses types owner name := by
  simp only [Contains, contained, names.mem_namesOf_iff, TypeBody.mem_contained, Encloses]

theorem isAcyclic_iff {types : List TypeDef} (names : (Table.mk types).HasNames) :
    (Table.mk types).IsAcyclic ↔ ∀ name, ¬TransGen (Encloses types) name name := by
  have same : (Table.mk types).Contains = Encloses types := by
    funext owner name
    exact propext (contains_iff names)
  rw [IsAcyclic, same]

theorem hasNames_iff {types : List TypeDef} :
    (Table.mk types).HasNames ↔
      (∀ type ∈ types, IsIdentifier type.name) ∧ (types.map TypeDef.name).Nodup ∧
        ∀ type ∈ types, type.body.HasNames := by
  constructor
  · rintro ⟨names, bodies⟩
    obtain ⟨identifiers, distinct⟩ := areNames_iff.1 names
    exact ⟨fun type member => identifiers _ (List.mem_map_of_mem member), distinct, bodies⟩
  · rintro ⟨identifiers, distinct, bodies⟩
    refine ⟨areNames_iff.2 ⟨fun name member => ?_, distinct⟩, bodies⟩
    obtain ⟨type, declared, rfl⟩ := List.mem_map.1 member
    exact identifiers type declared

theorem wellFormed_iff {types : List TypeDef} :
    WellFormed types ↔ (Table.mk types).HasNames ∧ (Table.mk types).IsClosed ∧
      (Table.mk types).IsAcyclic := by
  constructor
  · intro rules
    have names : (Table.mk types).HasNames := by
      refine hasNames_iff.2 ⟨fun type member => (rules.identifiers type member).1,
        rules.distinctTypes, fun type member => TypeBody.hasNames_iff.2 ?_⟩
      refine ⟨(rules.identifiers type member).2, rules.distinctFields type member, ?_⟩
      intro variants same
      exact ⟨rules.distinctVariants type member variants same,
        rules.fewVariants type member variants same⟩
    exact ⟨names, isClosed_iff.2 rules.declared, (isAcyclic_iff names).2 rules.acyclic⟩
  · rintro ⟨names, closed, acyclic⟩
    obtain ⟨identifiers, distinct, bodies⟩ := hasNames_iff.1 names
    have body (type : TypeDef) (member : type ∈ types) :=
      TypeBody.hasNames_iff.1 (bodies type member)
    exact {
      identifiers := fun type member => ⟨identifiers type member, (body type member).1⟩
      distinctTypes := distinct
      distinctFields := fun type member => (body type member).2.1
      distinctVariants := fun type member variants same =>
        ((body type member).2.2 variants same).1
      fewVariants := fun type member variants same => ((body type member).2.2 variants same).2
      declared := isClosed_iff.1 closed
      acyclic := (isAcyclic_iff names).1 acyclic }

/-- The checks of a table one after another: names, references, containment. -/
theorem ofTypes_eq_ok_iff_checks {types : List TypeDef} {table : Table} :
    ofTypes types = .ok table ↔ table = ⟨types⟩ ∧ (Table.mk types).HasNames ∧
      (Table.mk types).IsClosed ∧ (Table.mk types).IsAcyclic := by
  constructor
  · intro accepted
    obtain ⟨same, names⟩ := ofTypes_eq_ok accepted
    have closed := isClosed_of_ofTypes accepted
    subst same
    obtain ⟨-, rest⟩ := then_eq_ok.1 accepted
    simp only [dangling?_eq_none.2 closed] at rest
    obtain ⟨contained, -⟩ := then_eq_ok.1 rest
    exact ⟨rfl, names, closed, (checkContainment_eq_ok closed).1 contained⟩
  · rintro ⟨rfl, names, closed, acyclic⟩
    refine then_eq_ok.2 ⟨checkTypes_eq_ok.2 names, ?_⟩
    simp only [dangling?_eq_none.2 closed]
    exact then_eq_ok.2 ⟨(checkContainment_eq_ok closed).2 acyclic, rfl⟩

/-- Exactly the well-formed lists of definitions make a table, and it keeps them as they are. -/
theorem ofTypes_eq_ok_iff {types : List TypeDef} {table : Table} :
    ofTypes types = .ok table ↔ table.types = types ∧ WellFormed types := by
  rw [ofTypes_eq_ok_iff_checks, wellFormed_iff]
  refine and_congr_left fun _ => ?_
  cases table
  exact ⟨fun same => congrArg Table.types same, congrArg Table.mk⟩

end Table

end WireSchema
