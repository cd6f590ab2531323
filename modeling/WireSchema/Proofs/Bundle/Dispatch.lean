import WireSchema.Proofs.Bundle.Construction
import WireSchema.Proofs.Convert.Acceptance
import WireSchema.Proofs.Schema.References

/-! Dispatch on the variants of an enum. A value comes only out of the one key of a record, or of
the kind of an object, and only when the key is the name of a variant; and what is written of a
value names the same variant in each of its forms. -/

namespace WireSchema

open Outcome

namespace Convert

theorem findVariant_of_notMem {kind : String} {variants : List Variant}
    (undeclared : kind ∉ variants.map Variant.name) (enumName : String) :
    findVariant enumName variants kind = .error (.unrecognizedKind enumName kind) := by
  have absent : variants.find? (fun variant => variant.name = kind) = none := by
    refine List.find?_eq_none.2 fun variant member named => undeclared ?_
    obtain rfl : variant.name = kind := by simpa using named
    exact List.mem_map_of_mem member
  rw [findVariant, absent]
  cases variants.findIdx? fun variant => variant.name = kind <;> rfl

end Convert

namespace Value

variable {table : Table}

/-- A value of an enum with a kind, and with the tag of the variant that the kind names. -/
structure IsOfKind (name : String) (variants : List Variant) (kind : String) (tag : UInt8)
    (value : Value) : Prop where
  value : ∃ payload, value = .enum name kind tag payload
  declared : variants[tag.toNat]?.map Variant.name = some kind

section

variable {name path : String} {variants : List Variant}

/-- Every declared kind is found at the position that its tag stands for. -/
theorem exists_findVariant (few : variants.length ≤ maxVariants)
    (distinct : (variants.map Variant.name).Nodup) {kind : String}
    (declared : kind ∈ variants.map Variant.name) :
    ∃ position variant, Convert.findVariant name variants kind = .ok (position, variant) ∧
      variants[(Convert.tagOf position).toNat]?.map Variant.name = some kind := by
  obtain ⟨variant, member, rfl⟩ := List.mem_map.1 declared
  obtain ⟨position, here⟩ := List.getElem?_of_mem member
  have chosen : Convert.findVariant name variants variant.name = .ok (position, variant) :=
    findVariant_of_getElem? distinct here
  exact ⟨position, variant, chosen, by rw [toNat_tagOf few chosen, here]; rfl⟩

/-! ## Trees -/

theorem exists_ofLeaf_eq (known : table.body? name = some (.enum variants)) (tree : Tree) :
    ∃ reason, ofLeaf table tree (.defined name) path = .error (.invalidEnum name reason) := by
  have defined : Convert.definition table name path = .ok (.enum variants) :=
    Convert.definition_eq_ok.2 known
  simp only [ofLeaf, defined]
  cases tree with
  | record fields =>
    obtain _ | ⟨_, _ | _⟩ := fields
    all_goals exact ⟨_, rfl⟩
  | _ => exact ⟨_, rfl⟩

/-- Nothing but a record with one declared key goes through, and there is no default. -/
theorem exists_ofTree_eq (known : table.body? name = some (.enum variants)) {tree : Tree}
    (other : ∀ kind inner, tree = .record [(kind, inner)] → kind ∉ variants.map Variant.name) :
    ∃ reason, ofTree table tree (.defined name) path = .error (.invalidEnum name reason) := by
  have leaf := @exists_ofLeaf_eq table name path variants known tree
  have defined : Convert.definition table name path = .ok (.enum variants) :=
    Convert.definition_eq_ok.2 known
  cases tree with
  | record fields =>
    match fields with
    | [(kind, inner)] =>
      have unknown := Convert.findVariant_of_notMem (other kind inner rfl) name
      simp only [ofTree, defined, unknown, bind, Except.bind]
      exact ⟨_, rfl⟩
    | [] | _ :: _ :: _ =>
      simp only [ofTree, defined]
      exact leaf
  | option item =>
    cases item with
    | none => exact leaf
    | some inner => exact leaf
  | _ => exact leaf

theorem exists_of_ofTree (names : table.HasNames)
    (known : table.body? name = some (.enum variants)) {tree : Tree} {value : Value}
    (made : ofTree table tree (.defined name) path = .ok value) :
    ∃ kind inner tag, tree = .record [(kind, inner)] ∧ value.IsOfKind name variants kind tag := by
  obtain ⟨few, kinds, -⟩ := names.of_body? known
  by_cases single : ∃ kind inner, tree = .record [(kind, inner)] ∧ kind ∈ variants.map Variant.name
  · obtain ⟨kind, inner, rfl, declared⟩ := single
    obtain ⟨position, variant, chosen, tagged⟩ :=
      @exists_findVariant name variants few kinds.distinct kind declared
    have dispatched := (ofTree_enum known chosen inner).symm.trans made
    obtain ⟨payload, -, rfl⟩ := map_eq_ok.1 dispatched
    exact ⟨kind, inner, _, rfl, ⟨payload, rfl⟩, tagged⟩
  · obtain ⟨reason, rejected⟩ := @exists_ofTree_eq table name path variants known tree
      fun kind inner same declared => single ⟨kind, inner, same, declared⟩
    cases made.symm.trans rejected

/-! ## JSON -/

theorem kindOfMembers_eq_ok {members : Record Json} {kind : String} :
    kindOfMembers members path = .ok kind ↔
      Record.get? members "kind" = some (.string kind) := by
  rw [kindOfMembers]
  cases Record.get? members "kind" with
  | none => simp [Convert.mismatch]
  | some json => cases json <;> simp [Convert.jsonMismatch, Convert.mismatch]

theorem exists_object_of_ofJson (known : table.body? name = some (.enum variants)) {json : Json}
    {value : Value} (made : ofJson table json (.defined name) path = .ok value) :
    ∃ members, json = .object members := by
  have defined : Convert.definition table name path = .ok (.enum variants) :=
    Convert.definition_eq_ok.2 known
  have leaf : ofJsonLeaf table json (.defined name) path ≠ .ok value := by
    intro taken
    simp only [ofJsonLeaf, defined] at taken
    cases taken
  cases json with
  | object members => exact ⟨members, rfl⟩
  | null => exact absurd made leaf
  | _ => exact absurd ((wrapped_zero _).symm.trans made) leaf

theorem ofJson_of_notMem (known : table.body? name = some (.enum variants))
    {members : Record Json} {kind : String}
    (found : Record.get? members "kind" = some (.string kind))
    (undeclared : kind ∉ variants.map Variant.name) :
    ofJson table (.object members) (.defined name) path =
      .error (.unrecognizedKind name kind) := by
  have read : kindOfMembers members path = .ok kind := kindOfMembers_eq_ok.2 found
  rw [ofJson_enum_object known, read]
  simp only [bind, Except.bind, enumOfBody, Convert.findVariant_of_notMem undeclared]

theorem exists_of_ofJson (names : table.HasNames)
    (known : table.body? name = some (.enum variants)) {json : Json} {value : Value}
    (made : ofJson table json (.defined name) path = .ok value) :
    ∃ members kind tag, json = .object members ∧
      Record.get? members "kind" = some (.string kind) ∧
      value.IsOfKind name variants kind tag := by
  obtain ⟨few, kinds, -⟩ := names.of_body? known
  obtain ⟨members, rfl⟩ := exists_object_of_ofJson known made
  obtain ⟨kind, read, body⟩ := bind_eq_ok.1 ((ofJson_enum_object known members path).symm.trans made)
  have found := kindOfMembers_eq_ok.1 read
  obtain ⟨⟨position, variant⟩, chosen, rest⟩ := bind_eq_ok.1 body
  obtain ⟨payload, -, done⟩ := bind_eq_ok.1 rest
  obtain rfl := pure_eq_ok.1 done
  have declared : kind ∈ variants.map Variant.name := by
    by_contra undeclared
    cases chosen.symm.trans (Convert.findVariant_of_notMem undeclared name)
  obtain ⟨position', variant', chosen', tagged⟩ :=
    @exists_findVariant name variants few kinds.distinct kind declared
  obtain ⟨rfl, -⟩ := Prod.mk.inj (Except.ok.inj (chosen.symm.trans chosen'))
  exact ⟨members, kind, _, rfl, found, ⟨payload, rfl⟩, tagged⟩

/-! ## Written forms -/

/-- A value that has a tree has a JSON form, and both name its kind. -/
theorem isOfKind_of_hasType (names : table.HasNames)
    (known : table.body? name = some (.enum variants)) {value : Value}
    (typed : value.HasType table (.defined name)) :
    ∃ kind tag, value.IsOfKind name variants kind tag ∧
      (∀ path, ∃ inner, value.toTree table (.defined name) path = .ok (.record [(kind, inner)])) ∧
      ∀ path, ∃ members, value.toJson table (.defined name) path = .ok (.object members) ∧
        Record.get? members "kind" = some (.string kind) := by
  obtain ⟨tree, has⟩ := (belongs_iff_hasType names).2 typed
  cases typed with
  | struct known' => cases known.symm.trans known'
  | @enum _ kind _ tag variant payload known' declared named carried =>
    cases known.symm.trans known'
    refine ⟨kind, tag, ⟨⟨payload, rfl⟩, by rw [declared, ← named]; rfl⟩, fun path => ?_,
      fun path => ?_⟩
    · cases has with
      | enum known'' chosen carried => exact ⟨_, toTree_eq_ok.2 (.enum known'' chosen carried)⟩
    · obtain ⟨json, written⟩ := (exists_toTree_iff.1 ⟨tree, toTree_eq_ok.2 has⟩).1
      obtain ⟨-, _, _, body, -, -, -, rfl⟩ :=
        convertEnum_eq_ok.1 ((toJson_enum ..).symm.trans written)
      exact ⟨_, written, rfl⟩

end

end Value

namespace Bundle

variable {bundle : Bundle} {variants : List Variant}

theorem tagAndKind_of_isOfKind (distinct : (variants.map Variant.name).Nodup)
    (enum : bundle.type.body = .enum variants) {kind : String} {tag : UInt8} {value : Value}
    (of : value.IsOfKind bundle.name variants kind tag) :
    bundle.tagAndKind value = .ok (tag, kind) := by
  obtain ⟨⟨payload, rfl⟩, declared⟩ := of
  obtain ⟨variant, here, named⟩ := Option.map_eq_some_iff.1 declared
  have chosen : Convert.findVariant bundle.name variants kind = .ok (tag.toNat, variant) :=
    (Value.findVariant_eq_ok_iff_getElem? distinct).2 ⟨here, named⟩
  have checked : Value.checkVariant bundle.name bundle.variants kind tag bundle.name =
      .ok variant := by
    rw [Bundle.variants, enum]
    exact Value.checkVariant_eq_ok.2 chosen
  rw [tagAndKind, if_pos rfl]
  exact bind_eq_ok.2 ⟨variant, checked, rfl⟩

end Bundle

namespace Table

/-- Dispatch on the variants of an enum of a checked table. What is read has the kind that stands
in the tree or the JSON, and the tag of the variant with that name; a tree without exactly one
declared key is rejected in the name of the enum, and so is an object with an undeclared kind. The
tree, the JSON and the layout of a value all name its kind. -/
theorem dispatch_exact {types : List TypeDef} {table : Table}
    (accepted : ofTypes types = .ok table) {type : TypeDef} (member : type ∈ types)
    {variants : List Variant} (enum : type.body = .enum variants) :
    (∀ tree path value, Value.ofTree table tree (.defined type.name) path = .ok value →
      ∃ kind inner tag, tree = .record [(kind, inner)] ∧
        value.IsOfKind type.name variants kind tag) ∧
    (∀ tree path,
      (∀ kind inner, tree = .record [(kind, inner)] → kind ∉ variants.map Variant.name) →
      ∃ reason, Value.ofTree table tree (.defined type.name) path =
        .error (.invalidEnum type.name reason)) ∧
    (∀ json path value, Value.ofJson table json (.defined type.name) path = .ok value →
      ∃ members kind tag, json = .object members ∧
        Record.get? members "kind" = some (.string kind) ∧
        value.IsOfKind type.name variants kind tag) ∧
    (∀ members kind path, Record.get? members "kind" = some (.string kind) →
      kind ∉ variants.map Variant.name →
      Value.ofJson table (.object members) (.defined type.name) path =
        .error (.unrecognizedKind type.name kind)) ∧
    ∀ value : Value, value.HasType table (.defined type.name) →
      ∃ kind tag, value.IsOfKind type.name variants kind tag ∧
        (∀ path, ∃ inner, value.toTree table (.defined type.name) path =
          .ok (.record [(kind, inner)])) ∧
        (∀ path, ∃ members, value.toJson table (.defined type.name) path = .ok (.object members) ∧
          Record.get? members "kind" = some (.string kind)) ∧
        (∃ layouts, Layout.ofBody table type.body = .ok (.enum layouts) ∧
          layouts[tag.toNat]?.map Prod.fst = some kind) ∧
        ∀ bundle : Bundle, bundle.type = type →
          bundle.discriminator value = .ok tag ∧ bundle.kind value = .ok kind := by
  have closed := isClosed_of_ofTypes accepted
  obtain ⟨rfl, names⟩ := ofTypes_eq_ok accepted
  have known : (Table.mk types).body? type.name = some (.enum variants) := by
    rw [body?, names.find?_of_mem member, Option.map_some, enum]
  have kinds : (variants.map Variant.name).Nodup := (names.of_body? known).2.1.distinct
  refine ⟨fun _ _ _ => Value.exists_of_ofTree names known, fun _ _ => Value.exists_ofTree_eq known,
    fun _ _ _ => Value.exists_of_ofJson names known, fun _ _ _ => Value.ofJson_of_notMem known,
    fun value typed => ?_⟩
  obtain ⟨kind, tag, of, trees, jsons⟩ := Value.isOfKind_of_hasType names known typed
  refine ⟨kind, tag, of, trees, jsons, ⟨variants.map Variant.layout, ?_, ?_⟩, ?_⟩
  · rw [Layout.ofBody_of_declared (closed type member), enum, TypeBody.layout]
  · rw [List.getElem?_map, Option.map_map]
    exact of.declared
  · rintro bundle rfl
    have found := Bundle.tagAndKind_of_isOfKind kinds enum of
    exact ⟨map_eq_ok.2 ⟨_, found, rfl⟩, map_eq_ok.2 ⟨_, found, rfl⟩⟩

def marks : List Variant :=
  [⟨"Plain", .empty⟩, ⟨"Weighed", .tuple [.primitive .single]⟩]

theorem dispatch_exact_chain :
    (∃ value, Value.ofTree ⟨Catalog.chain.types⟩
        (.variant "Weighed" (.record [("_0", .float ⟨0x3ff8000000000000⟩)])) (.defined "Mark")
        "Mark" = .ok value ∧ value.IsOfKind "Mark" marks "Weighed" 1) ∧
    (∃ reason, Value.ofTree ⟨Catalog.chain.types⟩
      (.record [("Plain", .record []), ("Weighed", .record [])]) (.defined "Mark") "Mark" =
        .error (.invalidEnum "Mark" reason)) ∧
    (∃ value, Value.ofJson ⟨Catalog.chain.types⟩
        (.object [("value", .null), ("kind", .string "Plain")]) (.defined "Mark") "Mark" =
          .ok value ∧ value.IsOfKind "Mark" marks "Plain" 0) ∧
    Value.ofJson ⟨Catalog.chain.types⟩ (.object [("kind", .string "plain")]) (.defined "Mark")
      "Mark" = .error (.unrecognizedKind "Mark" "plain") ∧
    ∃ bundle, Catalog.catalogOfChain.bundle "Mark" = .ok bundle ∧
      bundle.kind (.enum "Mark" "Plain" 0 .empty) = .ok "Plain" := by
  obtain ⟨treesRead, treesRejected, jsonsRead, jsonsRejected, agree⟩ :=
    @dispatch_exact Catalog.chain.types ⟨Catalog.chain.types⟩ rfl
      ⟨"Mark", .enum marks⟩ (List.mem_cons_of_mem _ List.mem_cons_self) marks rfl
  have weighed : Value.ofTree ⟨Catalog.chain.types⟩
      (.variant "Weighed" (.record [("_0", .float ⟨0x3ff8000000000000⟩)])) (.defined "Mark")
      "Mark" = .ok (.enum "Mark" "Weighed" 1 (.tuple [.float ⟨0x3ff8000000000000⟩])) := rfl
  have plain : Value.ofJson ⟨Catalog.chain.types⟩
      (.object [("value", .null), ("kind", .string "Plain")]) (.defined "Mark") "Mark" =
        .ok (.enum "Mark" "Plain" 0 .empty) := rfl
  refine ⟨⟨_, weighed, ?_⟩, treesRejected _ _ ?_, ⟨_, plain, ?_⟩,
    jsonsRejected _ _ _ rfl (by decide), ⟨_, rfl, ?_⟩⟩
  · obtain ⟨kind, inner, tag, same, of⟩ := treesRead _ _ _ weighed
    cases same
    obtain ⟨payload, made⟩ := of.value
    cases made
    exact of
  · rintro kind inner ⟨⟩
  · obtain ⟨members, kind, tag, same, found, of⟩ := jsonsRead _ _ _ plain
    cases same
    cases found
    obtain ⟨payload, made⟩ := of.value
    cases made
    exact of
  · have typed : Value.HasType ⟨Catalog.chain.types⟩ (.enum "Mark" "Plain" 0 .empty)
        (.defined "Mark") := .enum rfl rfl rfl .empty
    obtain ⟨kind, tag, of, -, -, -, named⟩ := agree _ typed
    obtain ⟨payload, made⟩ := of.value
    cases made
    exact (named _ rfl).2

end Table

end WireSchema
