import WireSchema.Layout.Text
import WireSchema.Proofs.Rendering.Brackets.Expression
import WireSchema.Proofs.Rendering.Identifiers

/-! Names in the definitions of an accepted schema. All of them are identifiers, and so no member of
a scope and no layout can bring brackets of its own. -/

namespace WireSchema

open Brackets Outcome

/-! ## Definitions -/

def Field.HasIdentifiers (field : Field) : Prop :=
  IsIdentifier field.name ∧ field.type.HasIdentifiers

def Shape.HasIdentifiers (shape : Shape) : Prop :=
  ∀ member ∈ shape.members, member.HasIdentifiers

def Variant.HasIdentifiers (variant : Variant) : Prop :=
  IsIdentifier variant.name ∧ variant.shape.HasIdentifiers

def TypeBody.HasIdentifiers : TypeBody → Prop
  | struct fields => ∀ field ∈ fields, field.HasIdentifiers
  | enum variants => ∀ variant ∈ variants, variant.HasIdentifiers

/-- Mentioned names are declared, and declared names are identifiers. -/
theorem WellFormed.hasIdentifiers {types : List TypeDef} (rules : WellFormed types)
    {type : TypeDef} (member : type ∈ types) : type.body.HasIdentifiers := by
  have names := ((Table.hasNames_iff.1 (Table.wellFormed_iff.1 rules).1).2.2 type member)
  have mentioned {part : FieldType} (inside : type.body.HasPart part) : part.HasIdentifiers := by
    intro name references
    obtain ⟨other, declared, rfl⟩ :=
      rules.declared type member part inside name (FieldType.mem_references.1 references)
    exact (rules.identifiers other declared).1
  obtain ⟨name, body⟩ := type
  cases body with
  | struct fields =>
    exact fun field inside =>
      ⟨(rules.identifiers _ member).2 _ (.field (.struct fields) inside),
        mentioned (.field (.struct fields) inside)⟩
  | enum variants =>
    refine fun variant declared => ⟨(rules.identifiers _ member).2 _ (.variant declared), ?_⟩
    exact fun field inside =>
      ⟨isIdentifier_iff.1 ((names.2.2 variant declared).isIdentifier_of_mem field inside),
        mentioned (TypeBody.hasPart_of_mem_members declared inside)⟩

/-! ## Members -/

structure Member.HasIdentifiers (m : Member) : Prop where
  ident : IsPlain m.ident
  name : IsPlain m.field.name
  type : m.field.type.HasIdentifiers

theorem Member.hasIdentifiers_of_ofFields {scope : String} {fields : List Field}
    {members : List Member} (made : ofFields scope [] fields = .ok members)
    (named : ∀ field ∈ fields, field.HasIdentifiers) : ∀ m ∈ members, m.HasIdentifiers := by
  rw [← (ofFields_eq_ok.1 made).2]
  refine List.forall_mem_map.2 fun field inside => ?_
  obtain ⟨identifier, mentioned⟩ := named field inside
  exact ⟨Naming.isPlain_fieldIdent identifier, isPlain_of_isIdentifier identifier, mentioned⟩

def MemberShape.HasIdentifiers : MemberShape → Prop
  | empty => True
  | named members => ∀ m ∈ members, m.HasIdentifiers
  | tuple types => ∀ type ∈ types, type.HasIdentifiers

theorem MemberShape.hasIdentifiers_of_ofShape {scope : String} {shape : Shape}
    {memberShape : MemberShape} (made : ofShape scope shape = .ok memberShape)
    (named : shape.HasIdentifiers) : memberShape.HasIdentifiers := by
  cases shape with
  | empty =>
    cases made
    trivial
  | named fields =>
    obtain ⟨members, membersMade, done⟩ := bind_eq_ok.1 made
    rw [← pure_eq_ok.1 done]
    exact Member.hasIdentifiers_of_ofFields membersMade named
  | tuple types =>
    cases made
    intro type inside
    obtain ⟨position, bound, rfl⟩ := List.mem_iff_getElem.1 inside
    exact (named _ (List.mem_mapIdx.2 ⟨position, bound, rfl⟩)).2

structure MemberVariant.HasIdentifiers (variant : MemberVariant) : Prop where
  name : IsPlain variant.name
  ident : IsPlain variant.ident
  shape : variant.shape.HasIdentifiers

theorem MemberVariant.hasIdentifiers_of_ofVariants {enumName : String} {variants : List Variant}
    {memberVariants : List MemberVariant} (made : ofVariants enumName variants = .ok memberVariants)
    (named : ∀ variant ∈ variants, variant.HasIdentifiers) :
    ∀ variant ∈ memberVariants, variant.HasIdentifiers := by
  intro variant inside
  obtain ⟨⟨original, position⟩, found, variantMade⟩ :=
    exists_mem_of_mapM (then_eq_ok.1 made).2 inside
  obtain ⟨shape, shapeMade, done⟩ := bind_eq_ok.1 variantMade
  obtain ⟨identifier, members⟩ := named original (List.fst_mem_of_mem_zipIdx found)
  rw [← pure_eq_ok.1 done]
  exact ⟨isPlain_of_isIdentifier identifier, Naming.isPlain_typeIdent identifier,
    MemberShape.hasIdentifiers_of_ofShape shapeMade members⟩

/-! ## Layouts -/

theorem FieldType.isMatched_builder {type : FieldType} (named : type.HasIdentifiers) :
    IsMatched type.layout.builder := by
  induction type with
  | primitive p =>
    rcases p with _ | w | w | _ | _ | _ | _ | _
    case unsigned => cases w <;> rfl
    case signed => cases w <;> rfl
    all_goals rfl
  | vec item ih =>
    rw [FieldType.layout, Layout.builder_vec]
    exact isMatched_joined (.fixed _) [.filled (ih named), .fixed _] rfl
  | option item ih =>
    rw [FieldType.layout, Layout.builder_option]
    exact isMatched_joined (.fixed _) [.filled (ih named), .fixed _] rfl
  | array item length ih =>
    have digits := (isPlain_toString length).isMatched
    rw [FieldType.layout, Layout.builder_array]
    exact isMatched_joined (.fixed _) [.filled (ih named), .fixed _, .filled digits, .fixed _] rfl
  | hashMap key value keyIh valueIh =>
    obtain ⟨keys, values⟩ := List.forall_mem_append.1 named
    rw [FieldType.layout, Layout.builder_hashMap]
    exact isMatched_joined (.fixed _)
      [.filled (keyIh keys), .fixed _, .filled (valueIh values), .fixed _] rfl
  | defined name =>
    have plain := isPlain_of_isIdentifier (named name (List.mem_singleton_self name))
    rw [FieldType.layout, Layout.builder_defined]
    exact isMatched_joined (.fixed _) [.filled (isMatched_quote plain), .fixed _] rfl

theorem Layout.isMatched_builderEntries {entries : List (String × Layout)}
    (plain : ∀ entry ∈ entries, IsPlain entry.1 ∧ IsMatched entry.2.builder) :
    IsMatched (", ".intercalate (builderEntries entries)) := by
  rw [builderEntries_eq_map]
  refine isMatched_intercalate rfl (List.forall_mem_map.2 fun (name, layout) inside => ?_)
  obtain ⟨key, value⟩ := plain _ inside
  rw [builderEntry_mk]
  exact isMatched_joined (.fixed _)
    [.filled (isMatched_quote key), .fixed _, .filled value, .fixed _] rfl

theorem Layout.isMatched_builder_struct {fields : List Field}
    (named : ∀ field ∈ fields, field.HasIdentifiers) :
    IsMatched (Layout.struct (fields.map Field.layout)).builder := by
  have entries : IsMatched (", ".intercalate (builderEntries (fields.map Field.layout))) := by
    refine isMatched_builderEntries (List.forall_mem_map.2 fun field inside => ?_)
    obtain ⟨identifier, mentioned⟩ := named field inside
    exact ⟨isPlain_of_isIdentifier identifier, FieldType.isMatched_builder mentioned⟩
  cases fields with
  | nil =>
    rw [List.map_nil, ← Layout.unit, builder_unit]
    exact isMatched_ofList rfl
  | cons field rest =>
    rw [List.map_cons] at entries ⊢
    rw [builder_struct_cons]
    exact isMatched_joined (.fixed _) [.filled entries, .fixed _] rfl

theorem TypeBody.isMatched_builder {body : TypeBody} (named : body.HasIdentifiers) :
    IsMatched body.layout.builder := by
  cases body with
  | struct fields => exact Layout.isMatched_builder_struct named
  | enum variants =>
    have entries : IsMatched
        (", ".intercalate (Layout.builderEntries (variants.map Variant.layout))) := by
      refine Layout.isMatched_builderEntries (List.forall_mem_map.2 fun variant declared => ?_)
      obtain ⟨identifier, members⟩ := named variant declared
      exact ⟨isPlain_of_isIdentifier identifier, Layout.isMatched_builder_struct members⟩
    rw [TypeBody.layout, Layout.builder_enum]
    exact isMatched_joined (.fixed _) [.filled entries, .fixed _] rfl

end WireSchema
