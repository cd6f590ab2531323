import WireSchema.Catalog
import WireSchema.Proofs.Codec.Canonical
import WireSchema.Proofs.Schema.References

/-! Layouts that are made from checked tables. The only thing that making one can fail on is a
name without a declaration, and so the layout itself is a function of the type alone. -/

namespace WireSchema

open Outcome

def FieldType.layout : FieldType → Layout
  | primitive p => .primitive p
  | vec item => .vec item.layout
  | option item => .option item.layout
  | array item length => .array item.layout length
  | hashMap key value => .hashMap key.layout value.layout
  | defined name => .defined name

def Field.layout (field : Field) : String × Layout :=
  (field.name, field.type.layout)

def Shape.layout (shape : Shape) : Layout :=
  .struct (shape.members.map Field.layout)

def Variant.layout (variant : Variant) : String × Layout :=
  (variant.name, variant.shape.layout)

def TypeBody.layout : TypeBody → Layout
  | struct fields => .struct (fields.map Field.layout)
  | enum variants => .enum (variants.map Variant.layout)

def TypeDef.layout (type : TypeDef) : String × Layout :=
  (type.name, type.body.layout)

namespace Layout

theorem ofType_eq_ok {table : Table} {type : FieldType} {layout : Layout}
    (made : ofType table type = .ok layout) : layout = type.layout := by
  induction type generalizing layout with
  | primitive p => exact (Except.ok.inj made).symm
  | vec item ih | option item ih | array item length ih =>
    obtain ⟨inner, itemMade, done⟩ := bind_eq_ok.1 made
    rw [← pure_eq_ok.1 done, ih itemMade, FieldType.layout]
  | hashMap key value keyIh valueIh =>
    obtain ⟨first, keyMade, rest⟩ := bind_eq_ok.1 made
    obtain ⟨second, valueMade, done⟩ := bind_eq_ok.1 rest
    rw [← pure_eq_ok.1 done, keyIh keyMade, valueIh valueMade, FieldType.layout]
  | defined name =>
    obtain ⟨kind, _, done⟩ := bind_eq_ok.1 made
    exact (pure_eq_ok.1 done).symm

theorem ofField_eq_ok {table : Table} {field : Field} {part : String × Layout}
    (made : ofField table field = .ok part) : part = field.layout := by
  obtain ⟨layout, typeMade, done⟩ := bind_eq_ok.1 made
  rw [← pure_eq_ok.1 done, ofType_eq_ok typeMade, Field.layout]

theorem ofShape_eq_ok {table : Table} {shape : Shape} {layout : Layout}
    (made : ofShape table shape = .ok layout) : layout = shape.layout := by
  obtain ⟨parts, partsMade, done⟩ := bind_eq_ok.1 made
  rw [← pure_eq_ok.1 done, mapM_eq_map (fun _ _ => ofField_eq_ok) partsMade, Shape.layout]

theorem ofVariant_eq_ok {table : Table} {variant : Variant} {part : String × Layout}
    (made : ofVariant table variant = .ok part) : part = variant.layout := by
  obtain ⟨layout, shapeMade, done⟩ := bind_eq_ok.1 made
  rw [← pure_eq_ok.1 done, ofShape_eq_ok shapeMade, Variant.layout]

theorem ofBody_eq_ok {table : Table} {body : TypeBody} {layout : Layout}
    (made : ofBody table body = .ok layout) : layout = body.layout := by
  cases body with
  | struct fields =>
    obtain ⟨parts, partsMade, done⟩ := bind_eq_ok.1 made
    rw [← pure_eq_ok.1 done, mapM_eq_map (fun _ _ => ofField_eq_ok) partsMade, TypeBody.layout]
  | enum variants =>
    obtain ⟨parts, partsMade, done⟩ := bind_eq_ok.1 made
    rw [← pure_eq_ok.1 done, mapM_eq_map (fun _ _ => ofVariant_eq_ok) partsMade, TypeBody.layout]

end Layout

theorem Registry.ofTable_eq_ok {table : Table} {registry : Registry}
    (made : Registry.ofTable table = .ok registry) : registry = table.types.map TypeDef.layout := by
  refine mapM_eq_map (fun type part partMade => ?_) made
  obtain ⟨layout, bodyMade, done⟩ := bind_eq_ok.1 partMade
  rw [← pure_eq_ok.1 done, Layout.ofBody_eq_ok bodyMade, TypeDef.layout]

/-! ## Declared names -/

namespace Layout

variable {table : Table}

theorem ofType_of_declared {type : FieldType}
    (declared : ∀ name ∈ type.references, name ∈ table.names) :
    ofType table type = .ok type.layout := by
  induction type with
  | primitive p => rfl
  | vec item ih | option item ih | array item length ih =>
    exact bind_eq_ok.2 ⟨_, ih declared, rfl⟩
  | hashMap key value keyIh valueIh =>
    obtain ⟨keyDeclared, valueDeclared⟩ := List.forall_mem_append.1 declared
    exact bind_eq_ok.2 ⟨_, keyIh keyDeclared, bind_eq_ok.2 ⟨_, valueIh valueDeclared, rfl⟩⟩
  | defined name =>
    obtain ⟨type, found⟩ := Table.exists_of_mem_names (declared name (List.mem_singleton_self _))
    have known : table.kindOf name = .ok type.body.kind :=
      bind_eq_ok.2 ⟨type, by rw [Table.get, found], rfl⟩
    exact bind_eq_ok.2 ⟨_, known, rfl⟩

theorem ofField_of_declared {field : Field}
    (declared : ∀ name ∈ field.type.references, name ∈ table.names) :
    ofField table field = .ok field.layout :=
  bind_eq_ok.2 ⟨_, ofType_of_declared declared, rfl⟩

theorem ofVariant_of_declared {variant : Variant}
    (declared : ∀ member ∈ variant.shape.members, ∀ name ∈ member.type.references,
      name ∈ table.names) :
    ofVariant table variant = .ok variant.layout := by
  have members := mapM_of_forall fun member inside => ofField_of_declared (declared member inside)
  exact bind_eq_ok.2 ⟨_, bind_eq_ok.2 ⟨_, members, rfl⟩, rfl⟩

theorem ofBody_of_declared {body : TypeBody}
    (declared : ∀ name ∈ body.references, name ∈ table.names) :
    ofBody table body = .ok body.layout := by
  cases body with
  | struct fields =>
    have parts := mapM_of_forall fun field member => ofField_of_declared fun name mentioned =>
      declared name (TypeBody.mem_references_struct member mentioned)
    exact bind_eq_ok.2 ⟨_, parts, rfl⟩
  | enum variants =>
    have parts := mapM_of_forall fun variant known =>
      ofVariant_of_declared fun member inside name mentioned =>
        declared name (TypeBody.mem_references_enum known inside mentioned)
    exact bind_eq_ok.2 ⟨_, parts, rfl⟩

end Layout

/-- Where every reference is declared, every definition has its layout. -/
theorem Table.IsClosed.ofTable_eq_ok {table : Table} (closed : table.IsClosed) :
    Registry.ofTable table = .ok (table.types.map TypeDef.layout) :=
  mapM_of_forall fun type member =>
    bind_eq_ok.2 ⟨_, Layout.ofBody_of_declared (closed type member), rfl⟩

/-- What a registry has under a name is the layout of its definition. -/
theorem get?_layouts (table : Table) (name : String) :
    Record.get? (table.types.map TypeDef.layout) name =
      (table.find? name).map fun type => type.body.layout := by
  obtain ⟨types⟩ := table
  induction types with
  | nil => rfl
  | cons type rest ih =>
    simp only [Table.find?] at ih ⊢
    rw [List.map_cons, TypeDef.layout, Record.get?_cons, List.find?_cons, ih]
    by_cases same : type.name = name
    · simp [same]
    · simp [same]

/-! ## Distinct keys -/

theorem FieldType.layout_hasDistinctKeys (type : FieldType) :
    type.layout.hasDistinctKeys = true := by
  induction type with
  | primitive p => rfl
  | vec item ih | option item ih | array item length ih => exact ih
  | hashMap key value keyIh valueIh => exact Bool.and_eq_true_iff.2 ⟨keyIh, valueIh⟩
  | defined name => rfl

theorem haveDistinctKeys_iff {parts : List (String × Layout)} :
    Layout.haveDistinctKeys parts = true ↔ ∀ part ∈ parts, part.2.hasDistinctKeys = true := by
  induction parts with
  | nil => simp [Layout.haveDistinctKeys]
  | cons part rest ih => rw [Layout.haveDistinctKeys, Bool.and_eq_true, ih, List.forall_mem_cons]

theorem struct_hasDistinctKeys {fields : List Field} (distinct : (fields.map Field.name).Nodup) :
    (Layout.struct (fields.map Field.layout)).hasDistinctKeys = true := by
  rw [Layout.hasDistinctKeys, Bool.and_eq_true, decide_eq_true_eq, haveDistinctKeys_iff]
  refine ⟨?_, fun part member => ?_⟩
  · rwa [Record.keys, List.map_map]
  · obtain ⟨field, _, rfl⟩ := List.mem_map.1 member
    exact field.type.layout_hasDistinctKeys

theorem TypeBody.HasNames.layout_hasDistinctKeys {body : TypeBody} (names : body.HasNames) :
    body.layout.hasDistinctKeys = true := by
  cases body with
  | struct fields => exact struct_hasDistinctKeys (AreNames.distinct names)
  | enum variants =>
    obtain ⟨-, variantNames, shapes⟩ := names
    rw [TypeBody.layout, Layout.hasDistinctKeys, Bool.and_eq_true, decide_eq_true_eq,
      haveDistinctKeys_iff]
    refine ⟨?_, fun part member => ?_⟩
    · rw [Record.keys, List.map_map]
      exact variantNames.distinct
    · obtain ⟨variant, declared, rfl⟩ := List.mem_map.1 member
      exact struct_hasDistinctKeys (shapes variant declared).distinct_members

theorem Table.HasNames.layouts_haveDistinctKeys {table : Table} (names : table.HasNames) :
    Registry.hasDistinctKeys (table.types.map TypeDef.layout) = true := by
  apply haveDistinctKeys_iff.2
  intro part member
  obtain ⟨type, declared, rfl⟩ := List.mem_map.1 member
  exact (names.bodies type declared).layout_hasDistinctKeys

/-! ## Catalogs -/

/-- What is known of a catalog once it is accepted. -/
theorem Catalog.ofIdl_eq_ok {idl : Idl} {catalog : Catalog}
    (accepted : Catalog.ofIdl idl = .ok catalog) :
    catalog = ⟨⟨idl.types⟩, idl.types.map TypeDef.layout⟩ ∧ catalog.table.HasNames ∧
      ∀ type ∈ idl.types, Layout.ofBody catalog.table type.body = .ok type.body.layout := by
  obtain ⟨table, tableMade, rest⟩ := bind_eq_ok.1 accepted
  obtain ⟨rfl, names⟩ := Table.ofTypes_eq_ok tableMade
  obtain ⟨registry, registryMade, done⟩ := bind_eq_ok.1 (then_eq_ok.1 rest).2
  rw [← pure_eq_ok.1 done, Registry.ofTable_eq_ok registryMade]
  refine ⟨rfl, names, fun type member => ?_⟩
  obtain ⟨part, partMade⟩ := exists_of_mapM registryMade member
  obtain ⟨layout, bodyMade, -⟩ := bind_eq_ok.1 partMade
  rw [bodyMade, Layout.ofBody_eq_ok bodyMade]

end WireSchema
