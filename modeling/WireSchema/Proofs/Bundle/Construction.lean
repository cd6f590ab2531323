import WireSchema.Proofs.Bundle
import WireSchema.Proofs.Convert.HasType

/-! Construction of values. The conversion to a tree is what checks a value, and so the values
that can be constructed are those that have the type of the bundle. -/

namespace WireSchema

open Outcome

namespace Bundle

variable {bundle : Bundle}

theorem checked_eq_ok (names : bundle.table.HasNames) {value result : Value} :
    bundle.checked value = .ok result ↔
      Value.HasType bundle.table value (.defined bundle.name) ∧ result = value := by
  rw [← Value.belongs_iff_hasType names, checked, bind_eq_ok]
  constructor
  · rintro ⟨tree, made, done⟩
    exact ⟨⟨tree, Value.toTree_eq_ok.1 made⟩, (pure_eq_ok.1 done).symm⟩
  · rintro ⟨⟨tree, has⟩, rfl⟩
    exact ⟨tree, Value.toTree_eq_ok.2 has, rfl⟩

theorem constructStruct_eq_ok (names : bundle.table.HasNames)
    (known : bundle.table.body? bundle.name = some bundle.type.body) {fields : Record Value}
    {value : Value} :
    bundle.constructStruct fields = .ok value ↔
      (∃ declared, bundle.type.body = .struct declared ∧
        Value.FieldsHaveTypes bundle.table fields declared) ∧
      value = .struct bundle.name fields := by
  rw [constructStruct, checked_eq_ok names]
  refine and_congr_left fun _ => ?_
  constructor
  · intro typed
    cases typed with
    | struct known' members => exact ⟨_, Option.some.inj (known.symm.trans known'), members⟩
  · rintro ⟨declared, body, members⟩
    exact .struct (known.trans (congrArg some body)) members

theorem constructEnum_eq_ok (names : bundle.table.HasNames)
    (known : bundle.table.body? bundle.name = some bundle.type.body) {kind : String}
    {payload : Payload Value} {value : Value} :
    bundle.constructEnum kind payload = .ok value ↔
      ∃ variants tag variant, bundle.type.body = .enum variants ∧
        variants[tag.toNat]? = some variant ∧ variant.name = kind ∧
        Value.PayloadHasTypes bundle.table payload variant.shape ∧
        value = .enum bundle.name kind tag payload := by
  rw [constructEnum, bind_eq_ok]
  constructor
  · rintro ⟨⟨position, variant⟩, chosen, made⟩
    obtain ⟨typed, rfl⟩ := (checked_eq_ok names).1 made
    obtain ⟨-, rfl⟩ := Convert.mem_of_findVariant chosen
    cases typed with
    | enum known' declared named carried =>
      exact ⟨_, _, _, Option.some.inj (known.symm.trans known'), declared, named, carried, rfl⟩
  · rintro ⟨variants, tag, variant, body, declared, rfl, carried, rfl⟩
    have known' := known.trans (congrArg some body)
    obtain ⟨-, kinds, -⟩ := names.of_body? known'
    have chosen : bundle.variant variant.name = .ok (tag.toNat, variant) := by
      rw [Bundle.variant, Bundle.variants, body]
      exact (Value.findVariant_eq_ok_iff_getElem? kinds.distinct).2 ⟨declared, rfl⟩
    have same : Convert.tagOf tag.toNat = tag := UInt8.ofNat_toNat
    refine ⟨_, chosen, (checked_eq_ok names).2 ⟨?_, by rw [same]⟩⟩
    rw [same]
    exact .enum known' declared rfl carried

end Bundle

namespace Table

/-- Conversion accepts the values that have the type, and so does construction, which changes
nothing about what it is given. -/
theorem accepts_typed_values {types : List TypeDef} {table : Table}
    (accepted : ofTypes types = .ok table) :
    (∀ value type path, (∃ tree, Value.toTree table value type path = .ok tree) ↔
      Value.HasType table value type) ∧
    ∀ bundle : Bundle, bundle.table = table → bundle.type ∈ types →
      (∀ fields value, bundle.constructStruct fields = .ok value ↔
        (∃ declared, bundle.type.body = .struct declared ∧
          Value.FieldsHaveTypes table fields declared) ∧
        value = .struct bundle.name fields) ∧
      ∀ kind payload value, bundle.constructEnum kind payload = .ok value ↔
        ∃ variants tag variant, bundle.type.body = .enum variants ∧
          variants[tag.toNat]? = some variant ∧ variant.name = kind ∧
          Value.PayloadHasTypes table payload variant.shape ∧
          value = .enum bundle.name kind tag payload := by
  obtain ⟨rfl, names⟩ := ofTypes_eq_ok accepted
  constructor
  · intro value type path
    rw [← Value.belongs_iff_hasType names]
    exact exists_congr fun tree => Value.toTree_eq_ok
  · rintro bundle same member
    have known : bundle.table.body? bundle.name = some bundle.type.body := by
      rw [same]
      exact congrArg (Option.map TypeDef.body) (names.find?_of_mem member)
    rw [← same] at names ⊢
    exact ⟨fun _ _ => Bundle.constructStruct_eq_ok names known,
      fun _ _ _ => Bundle.constructEnum_eq_ok names known⟩

/-- A mark may be weighed by a single, and not by nothing. -/
theorem accepts_typed_values_chain :
    ∃ bundle, Catalog.catalogOfChain.bundle "Mark" = .ok bundle ∧
      bundle.constructEnum "Weighed" (.tuple [.float ⟨0x3ff8000000000000⟩]) =
        .ok (.enum "Mark" "Weighed" 1 (.tuple [.float ⟨0x3ff8000000000000⟩])) ∧
      ¬Value.HasType ⟨Catalog.chain.types⟩ (.enum "Mark" "Weighed" 1 .empty) (.defined "Mark") := by
  obtain ⟨converts, constructs⟩ :=
    @accepts_typed_values Catalog.chain.types ⟨Catalog.chain.types⟩ rfl
  obtain ⟨bundle, made, table, type⟩ : ∃ bundle, Catalog.catalogOfChain.bundle "Mark" = .ok bundle ∧
      bundle.table = ⟨Catalog.chain.types⟩ ∧ Catalog.chain.types[1]? = some bundle.type :=
    ⟨_, rfl, rfl, rfl⟩
  refine ⟨bundle, made, ?_, fun typed => ?_⟩
  · obtain ⟨-, enums⟩ := constructs bundle table (List.mem_of_getElem? type)
    cases made
    refine (enums _ _ _).2 ⟨_, 1, _, rfl, rfl, rfl, .tuple rfl ?_, rfl⟩
    intro position value type here declared
    match position with
    | 0 =>
      cases here
      cases declared
      exact .single (.inr rfl)
    | position + 1 => cases here
  · obtain ⟨tree, made⟩ := (converts _ _ "Mark").2 typed
    cases made

end Table

end WireSchema
