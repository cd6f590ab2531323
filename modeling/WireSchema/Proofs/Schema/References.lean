import WireSchema.Proofs.Schema.Names

/-! Names that the definitions of a checked table refer to. All of them are declared. -/

namespace WireSchema

open Outcome

namespace TypeBody

theorem mem_references_struct {fields : List Field} {field : Field} {name : String}
    (member : field ∈ fields) (mentioned : name ∈ field.type.references) :
    name ∈ (struct fields).references :=
  List.mem_flatMap.2 ⟨_, List.mem_map_of_mem member, mentioned⟩

theorem mem_references_enum {variants : List Variant} {variant : Variant} {field : Field}
    {name : String} (declared : variant ∈ variants) (member : field ∈ variant.shape.members)
    (mentioned : name ∈ field.type.references) : name ∈ (enum variants).references :=
  List.mem_flatMap.2
    ⟨_, List.mem_flatMap.2 ⟨variant, declared, List.mem_map_of_mem member⟩, mentioned⟩

end TypeBody

namespace Table

def IsClosed (table : Table) : Prop :=
  ∀ type ∈ table.types, ∀ name ∈ type.body.references, name ∈ table.names

theorem dangling?_eq_none {table : Table} : table.dangling? = none ↔ table.IsClosed := by
  simp only [dangling?, List.findSome?_eq_none_iff, Option.map_eq_none_iff, List.find?_eq_none,
    Bool.not_eq_true', Bool.not_eq_false, List.contains_iff_mem, IsClosed, TypeBody.references,
    List.mem_flatMap]
  constructor
  · rintro declared type member name ⟨position, inside, mentioned⟩
    exact declared type member position inside name mentioned
  · intro closed type member position inside name mentioned
    exact closed type member name ⟨position, inside, mentioned⟩

theorem isClosed_of_ofTypes {types : List TypeDef} {table : Table}
    (accepted : ofTypes types = .ok table) : table.IsClosed := by
  obtain ⟨rfl, -⟩ := ofTypes_eq_ok accepted
  obtain ⟨-, rest⟩ := then_eq_ok.1 accepted
  simp only at rest
  split at rest
  next => cases rest
  next absent =>
    apply dangling?_eq_none.1
    cases found : dangling? ⟨types⟩ with
    | none => rfl
    | some error => exact absurd found (absent error)

/-- A name that is declared has a definition. -/
theorem exists_of_mem_names {table : Table} {name : String} (declared : name ∈ table.names) :
    ∃ type, table.find? name = some type := by
  obtain ⟨type, member, rfl⟩ := List.mem_map.1 declared
  exact Option.isSome_iff_exists.1
    (List.find?_isSome.2 ⟨type, member, by simp⟩)

end Table

end WireSchema
