import WireSchema.Proofs.Bundle
import WireSchema.Proofs.Naming.Conversion
import WireSchema.Proofs.Schema.WellFormed
import WireSchema.Rendering.Package

/-! Identifiers in emitted source. Names that differ may be given one identifier. Across types
this is ruled out when a catalog is made, and within a type when its module is rendered. -/

namespace WireSchema

open Outcome

def AreFree (taken names : List String) : Prop :=
  names.Nodup ∧ ∀ name ∈ names, name ∉ taken

theorem areFree_nil (taken : List String) : AreFree taken [] :=
  ⟨List.nodup_nil, fun _ member => by cases member⟩

theorem areFree_of_none {names : List String} : AreFree [] names ↔ names.Nodup :=
  and_iff_left fun _ _ => List.not_mem_nil

/-- A name that was taken is in the way of those behind it. -/
theorem areFree_cons {taken names : List String} {name : String} :
    AreFree taken (name :: names) ↔
      ¬taken.contains name = true ∧ AreFree (name :: taken) names := by
  rw [AreFree, AreFree, List.nodup_cons, List.forall_mem_cons, List.contains_iff_mem]
  constructor
  · rintro ⟨⟨fresh, distinct⟩, free, others⟩
    refine ⟨free, distinct, fun other member met => ?_⟩
    obtain rfl | taken := List.mem_cons.1 met
    · exact fresh member
    · exact others other member taken
  · rintro ⟨free, distinct, others⟩
    exact ⟨⟨fun member => others name member List.mem_cons_self, distinct⟩, free,
      fun other member met => others other member (List.mem_cons_of_mem _ met)⟩

theorem areFree_append {taken names others : List String} :
    AreFree taken (names ++ others) ↔
      AreFree taken names ∧ AreFree (names.reverse ++ taken) others := by
  induction names generalizing taken with
  | nil => exact (and_iff_right (areFree_nil taken)).symm
  | cons name rest ih =>
    rw [List.cons_append, areFree_cons, ih, areFree_cons, List.reverse_cons, List.append_assoc,
      and_assoc]
    rfl

/-! ## Across types -/

namespace Catalog

theorem claim_eq_ok {owner : String} {taken names all : List String} :
    claim owner taken names = .ok all ↔ AreFree taken names ∧ names.reverse ++ taken = all := by
  induction names generalizing taken with
  | nil =>
    rw [claim, and_iff_right (areFree_nil taken)]
    exact Except.ok.injEq taken all ▸ Iff.rfl
  | cons name rest ih =>
    simp only [claim, guard_eq_ok]
    rw [ih, areFree_cons, List.reverse_cons, List.append_assoc, and_assoc]
    rfl

theorem checkItems_eq_ok {stems items : List String} {types : List TypeDef} :
    checkItems stems items types = .ok () ↔
      AreFree stems (types.map fun type => Naming.fileStem type.moduleIdent) ∧
        AreFree items (types.flatMap TypeDef.exportedItems) := by
  induction types generalizing stems items with
  | nil => simp [checkItems, areFree_nil]
  | cons type rest ih =>
    have split : List.map (fun type => Naming.fileStem (TypeDef.moduleIdent type)) (type :: rest) =
        [Naming.fileStem type.moduleIdent] ++
          rest.map fun type => Naming.fileStem type.moduleIdent := rfl
    rw [split, List.flatMap_cons, areFree_append, areFree_append]
    simp only [checkItems, bind_eq_ok, claim_eq_ok, ih]
    constructor
    · rintro ⟨_, ⟨stemFree, rfl⟩, _, ⟨itemsFree, rfl⟩, stemsRest, itemsRest⟩
      exact ⟨⟨stemFree, stemsRest⟩, itemsFree, itemsRest⟩
    · rintro ⟨⟨stemFree, stemsRest⟩, itemsFree, itemsRest⟩
      exact ⟨_, ⟨stemFree, rfl⟩, _, ⟨itemsFree, rfl⟩, stemsRest, itemsRest⟩

theorem distinct_of_ofIdl {idl : Idl} {catalog : Catalog} (accepted : ofIdl idl = .ok catalog) :
    (idl.types.map fun type => Naming.fileStem type.moduleIdent).Nodup ∧
      (idl.types.flatMap TypeDef.exportedItems).Nodup := by
  obtain ⟨table, tableMade, rest⟩ := bind_eq_ok.1 accepted
  obtain ⟨rfl, -⟩ := Table.ofTypes_eq_ok tableMade
  obtain ⟨stems, items⟩ := checkItems_eq_ok.1 (then_eq_ok.1 rest).1
  exact ⟨areFree_of_none.1 stems, areFree_of_none.1 items⟩

end Catalog

/-! ## Exported items -/

theorem isWord_of_mem_suffixed {name suffix : String} (identifier : IsIdentifier name)
    (word : suffix.toList.all isIdentifierRest = true) :
    ∀ c ∈ (Naming.pascalCase name ++ suffix).toList, IsWord c := by
  rw [String.toList_append]
  exact List.forall_mem_append.2 ⟨Naming.isWord_of_mem_pascalCase identifier, fun c member =>
    isIdentifierRest_iff.1 (List.all_eq_true.1 word c member)⟩

theorem TypeDef.isWord_of_mem_exportedItems {type : TypeDef} (identifier : IsIdentifier type.name) :
    ∀ item ∈ type.exportedItems, ∀ c ∈ item.toList, IsWord c := by
  have fields : ∀ c ∈ (Naming.fieldsItem type.name).toList, IsWord c :=
    isWord_of_mem_suffixed identifier (by decide)
  have json : ∀ c ∈ (Naming.jsonItem type.name).toList, IsWord c :=
    isWord_of_mem_suffixed identifier (by decide)
  have kind : ∀ c ∈ (Naming.kindItem type.name).toList, IsWord c :=
    isWord_of_mem_suffixed identifier (by decide)
  have built := Naming.isWord_of_mem_typeIdent identifier
  unfold exportedItems
  split
  next =>
    exact List.forall_mem_cons.2 ⟨built, List.forall_mem_cons.2
      ⟨fields, List.forall_mem_singleton.2 json⟩⟩
  next =>
    exact List.forall_mem_cons.2
      ⟨json, List.forall_mem_singleton.2 kind⟩

/-! ## Within a type -/

theorem Member.ofFields_eq_ok {scope : String} {seen : List String} {fields : List Field}
    {members : List Member} :
    ofFields scope seen fields = .ok members ↔
      AreFree seen (fields.map fun field => Naming.fieldIdent field.name) ∧
        (fields.map fun field => ⟨Naming.fieldIdent field.name, field⟩) = members := by
  induction fields generalizing seen members with
  | nil =>
    rw [ofFields, List.map_nil, and_iff_right (areFree_nil seen)]
    exact Except.ok.injEq [] members ▸ Iff.rfl
  | cons field rest ih =>
    rw [List.map_cons, areFree_cons, List.map_cons]
    simp only [ofFields, guard_eq_ok, bind_eq_ok, ih]
    constructor
    · rintro ⟨free, _, ⟨others, rfl⟩, done⟩
      exact ⟨⟨free, others⟩, pure_eq_ok.1 done⟩
    · rintro ⟨⟨free, others⟩, rfl⟩
      exact ⟨free, _, ⟨others, rfl⟩, rfl⟩

theorem Member.exists_ofFields {scope : String} {fields : List Field} :
    (∃ members, ofFields scope [] fields = .ok members) ↔
      (fields.map fun field => Naming.fieldIdent field.name).Nodup := by
  simp only [ofFields_eq_ok, areFree_of_none, exists_and_left, exists_eq', and_true]

theorem MemberShape.exists_ofShape {scope : String} {shape : Shape} :
    (∃ made, ofShape scope shape = .ok made) ↔
      ∀ fields, shape = .named fields →
        (fields.map fun field => Naming.fieldIdent field.name).Nodup := by
  cases shape with
  | named fields =>
    simp only [Shape.named.injEq, forall_eq']
    exact exists_bind_pure.trans Member.exists_ofFields
  | _ => simp [ofShape]

namespace MemberVariant

theorem checkIdents_cons {enumName : String} {seen : List String} {variant : Variant}
    {rest : List Variant} :
    checkIdents enumName seen (variant :: rest) = .ok () ↔
      (Naming.typeIdent variant.name ≠ Naming.kindItem enumName ∧
          Naming.typeIdent variant.name ≠ Naming.jsonItem enumName) ∧
        ¬seen.contains (Naming.typeIdent variant.name) = true ∧
        checkIdents enumName (Naming.typeIdent variant.name :: seen) rest = .ok () := by
  rw [checkIdents]
  -- Otherwise the identifier would be computed.
  generalize Naming.typeIdent variant.name = ident
  simp only [guard_eq_ok, Bool.or_eq_true, decide_eq_true_eq, not_or]

theorem checkIdents_eq_ok {enumName : String} {seen : List String} {variants : List Variant} :
    checkIdents enumName seen variants = .ok () ↔
      AreFree seen (variants.map fun variant => Naming.typeIdent variant.name) ∧
        ∀ variant ∈ variants, Naming.typeIdent variant.name ≠ Naming.kindItem enumName ∧
          Naming.typeIdent variant.name ≠ Naming.jsonItem enumName := by
  induction variants generalizing seen with
  | nil => simp [checkIdents, areFree_nil]
  | cons variant rest ih =>
    rw [checkIdents_cons, ih, List.map_cons, areFree_cons, List.forall_mem_cons]
    constructor
    · rintro ⟨apart, fresh, free, others⟩
      exact ⟨⟨fresh, free⟩, apart, others⟩
    · rintro ⟨⟨fresh, free⟩, apart, others⟩
      exact ⟨apart, fresh, free, others⟩

theorem exists_ofVariant {enumName : String} {position : Nat} {variant : Variant} :
    (∃ made, ofVariant enumName position variant = .ok made) ↔
      ∀ fields, variant.shape = .named fields →
        (fields.map fun field => Naming.fieldIdent field.name).Nodup :=
  exists_bind_pure.trans MemberShape.exists_ofShape

theorem exists_ofVariants {enumName : String} {variants : List Variant} :
    (∃ made, ofVariants enumName variants = .ok made) ↔
      checkIdents enumName [] variants = .ok () ∧
        ∀ variant ∈ variants, ∀ fields, variant.shape = .named fields →
          (fields.map fun field => Naming.fieldIdent field.name).Nodup := by
  simp only [ofVariants, then_eq_ok, exists_and_left, exists_mapM, exists_ofVariant]
  refine and_congr_right fun _ => ⟨fun each variant member => ?_, fun each element member => ?_⟩
  · obtain ⟨position, bound, rfl⟩ := List.mem_iff_getElem.1 member
    exact each _ (List.mk_mem_zipIdx_iff_getElem?.2 (List.getElem?_eq_getElem bound))
  · exact each element.1 (List.fst_mem_of_mem_zipIdx member)

end MemberVariant

/-- Whether identifiers tell apart the members of each scope, and the variants from each other
and from the items of their enum. -/
structure TypeDef.IsEmittable (type : TypeDef) : Prop where
  members : ∀ fields, type.body.HasScope fields →
    (fields.map fun field => Naming.fieldIdent field.name).Nodup
  variants : ∀ variants, type.body = .enum variants →
    (variants.map fun variant => Naming.typeIdent variant.name).Nodup
  items : ∀ variants, type.body = .enum variants → ∀ variant ∈ variants,
    Naming.typeIdent variant.name ≠ Naming.kindItem type.name ∧
      Naming.typeIdent variant.name ≠ Naming.jsonItem type.name

theorem TypeDef.isEmittable_struct {name : String} {fields : List Field} :
    IsEmittable ⟨name, .struct fields⟩ ↔
      (fields.map fun field => Naming.fieldIdent field.name).Nodup := by
  constructor
  · intro emittable
    exact emittable.members fields (.struct fields)
  · intro distinct
    refine ⟨fun others scope => ?_, by rintro _ ⟨⟩, by rintro _ ⟨⟩⟩
    cases scope
    exact distinct

theorem TypeDef.isEmittable_enum {name : String} {variants : List Variant} :
    IsEmittable ⟨name, .enum variants⟩ ↔
      MemberVariant.checkIdents name [] variants = .ok () ∧
        ∀ variant ∈ variants, ∀ fields, variant.shape = .named fields →
          (fields.map fun field => Naming.fieldIdent field.name).Nodup := by
  rw [MemberVariant.checkIdents_eq_ok, areFree_of_none]
  constructor
  · intro emittable
    exact ⟨⟨emittable.variants variants rfl, emittable.items variants rfl⟩,
      fun variant member fields shape => emittable.members fields (.variant member shape)⟩
  · rintro ⟨⟨distinct, apart⟩, scopes⟩
    refine ⟨fun fields scope => ?_, by rintro _ ⟨⟩; exact distinct, by rintro _ ⟨⟩; exact apart⟩
    cases scope with
    | variant member shape => exact scopes _ member fields shape

theorem Bundle.exists_render {bundle : Bundle} {options : RenderOptions} :
    (∃ source, bundle.render options = .ok source) ↔ bundle.type.IsEmittable := by
  refine exists_bind_pure.trans ?_
  obtain ⟨table, registry, ⟨name, body⟩, layout⟩ := bundle
  cases body with
  | struct fields =>
    rw [TypeDef.isEmittable_struct, ← Member.exists_ofFields]
    exact exists_bind_pure
  | enum variants =>
    rw [TypeDef.isEmittable_enum, ← MemberVariant.exists_ofVariants]
    exact exists_bind_pure

namespace Catalog

variable {idl : Idl} {catalog : Catalog}

theorem wellFormed_of_ofIdl (accepted : ofIdl idl = .ok catalog) : WellFormed idl.types := by
  obtain ⟨table, made, -⟩ := bind_eq_ok.1 accepted
  exact Table.wellFormed_iff.2 (Table.ofTypes_eq_ok_iff_checks.1 made).2

theorem isIdentifier_of_ofIdl (accepted : ofIdl idl = .ok catalog) {type : TypeDef}
    (member : type ∈ idl.types) : IsIdentifier type.name :=
  ((wellFormed_of_ofIdl accepted).identifiers type member).1

theorem exists_renderModule (accepted : ofIdl idl = .ok catalog) {type : TypeDef}
    (member : type ∈ idl.types) {options : RenderOptions} :
    (∃ module, catalog.renderModule options type = .ok module) ↔ type.IsEmittable := by
  rw [renderModule, bundle_of_mem accepted member]
  exact exists_bind_pure.trans Bundle.exists_render

/-- Files and exported items of an accepted catalog never clash, and it is rendered if and only if
identifiers do not clash within any of its types. -/
theorem render_iff_emittable (accepted : ofIdl idl = .ok catalog) :
    (idl.types.map fun type => Naming.fileStem type.moduleIdent).Nodup ∧
      (idl.types.flatMap TypeDef.exportedItems).Nodup ∧
      ∀ options, (∃ package, catalog.render options = .ok package) ↔
        ∀ type ∈ idl.types, type.IsEmittable := by
  obtain ⟨stems, items⟩ := distinct_of_ofIdl accepted
  refine ⟨stems, items, fun options => ?_⟩
  have types : catalog.table.types = idl.types := by rw [(ofIdl_eq_ok accepted).1]
  rw [render, exists_bind_pure, exists_mapM, types]
  exact forall₂_congr fun type member => exists_renderModule accepted member

def twins : Idl :=
  ⟨none, none, [⟨"Pair", .struct
    [⟨"leftHand", .primitive .bool⟩, ⟨"left_hand", .primitive .bool⟩]⟩]⟩

/-- The chain is rendered, and the twins are accepted without being rendered. -/
theorem render_iff_emittable_twins :
    (∃ package, catalogOfChain.render .standard = .ok package) ∧
      ∃ catalog, ofIdl twins = .ok catalog ∧
        ¬∃ package, catalog.render .standard = .ok package := by
  constructor
  · obtain ⟨-, -, rendered⟩ := @render_iff_emittable chain catalogOfChain rfl
    refine (rendered .standard).2 (List.forall_mem_cons.2 ⟨?_, List.forall_mem_singleton.2 ?_⟩)
    · rw [TypeDef.isEmittable_struct]
      decide
    · rw [TypeDef.isEmittable_enum]
      refine ⟨rfl, ?_⟩
      simp
  · refine ⟨_, rfl, ?_⟩
    obtain ⟨-, -, rendered⟩ := @render_iff_emittable twins _ rfl
    intro made
    have distinct := List.forall_mem_singleton.1 ((rendered .standard).1 made)
    rw [TypeDef.isEmittable_struct] at distinct
    exact absurd distinct (by decide)

end Catalog

end WireSchema
