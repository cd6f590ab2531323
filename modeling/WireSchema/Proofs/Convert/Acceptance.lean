import WireSchema.Proofs.Convert.Belongs
import WireSchema.Proofs.Convert.Forms
import WireSchema.Proofs.Convert.Stability

/-! Values that can be written. Both writers, the one of JSON and the one of trees, go through the
parts of a value, so each accepts a value if it accepts the value's form and all of its parts. What
they ask of a form is the same, except that the writer of JSON passes over what is loose. -/

namespace WireSchema

open Outcome

namespace Value

variable {table : Table}

/-! ## JSON -/

def WritesJson (table : Table) (whole : TypedValue) : Prop :=
  ∃ path json, whole.value.toJson table whole.type path = .ok json

def AlwaysWritesJson (table : Table) (whole : TypedValue) : Prop :=
  ∀ path, ∃ json, whole.value.toJson table whole.type path = .ok json

/-- Whether a value can be written, as far as can be told without looking into its parts, and
whether those can be written. -/
def IsReady (table : Table) (written : TypedValue → Prop) (whole : TypedValue) : Prop :=
  whole.HasForm table ∧ ∀ part ∈ whole.parts table, written part

theorem hasForm_of_jsonOfValue {p : Primitive} {value : Value} {path : String} {json : Json}
    (made : p.jsonOfValue value path = .ok json) :
    TypedValue.HasForm table ⟨value, .primitive p⟩ := by
  unfold Primitive.jsonOfValue at made
  simp only [Convert.mismatch] at made
  split at made
  next b => exact .bool b
  next =>
    split at made
    next bound => exact .unsigned bound
    next => cases made
  next =>
    split at made
    next bound => exact .signed bound
    next => cases made
  next x => exact .single x
  next x => exact .double x
  next s => exact .string s
  next b => exact .bytes b
  next key => exact .publicKey key
  next => cases made

theorem isReady_of_leaf {value : Value} {type : FieldType} {path : String} {json : Json}
    (made : jsonOfLeaf table value type path = .ok json) :
    IsReady table (WritesJson table) ⟨value, type⟩ := by
  unfold jsonOfLeaf at made
  split at made
  next p => exact ⟨hasForm_of_jsonOfValue made, by simp [TypedValue.parts_primitive]⟩
  next => exact absurd made (rejected_ne_ok _ _ _ _)

theorem writesJson_of_jsonItems {items : List Value} {type : FieldType} {path : String}
    {position : Nat} {jsons : List Json}
    (made : jsonItems table items type path position = .ok jsons) :
    ∀ item ∈ items, WritesJson table ⟨item, type⟩ := by
  induction items generalizing position jsons with
  | nil => simp
  | cons item rest ih =>
    obtain ⟨json, first, tail⟩ := bind_eq_ok.1 made
    obtain ⟨others, restMade, -⟩ := bind_eq_ok.1 tail
    exact List.forall_mem_cons.2 ⟨⟨_, json, first⟩, ih restMade⟩

theorem writesJson_of_jsonEntries {entries : List (Value × Value)} {key item : FieldType}
    {path : String} {position : Nat} {jsons : List Json}
    (made : jsonEntries table entries key item path position = .ok jsons) :
    ∀ entry ∈ entries, WritesJson table ⟨entry.1, key⟩ ∧ WritesJson table ⟨entry.2, item⟩ := by
  induction entries generalizing position jsons with
  | nil => simp
  | cons entry rest ih =>
    obtain ⟨keyJson, keyMade, itemRest⟩ := bind_eq_ok.1 made
    obtain ⟨itemJson, itemMade, tail⟩ := bind_eq_ok.1 itemRest
    obtain ⟨others, restMade, -⟩ := bind_eq_ok.1 tail
    exact List.forall_mem_cons.2 ⟨⟨⟨_, keyJson, keyMade⟩, _, itemJson, itemMade⟩, ih restMade⟩

theorem writesJson_of_members {fields : Record Value} {path : String} {declared : List Field}
    {jsons : Record Json}
    (made : Convert.members (jsonFields table fields) path declared = .ok jsons) :
    TypedValue.HasAll fields declared ∧
      ∀ part ∈ TypedValue.ofMembers fields declared, WritesJson table part := by
  have each := Convert.exists_members.1 ⟨jsons, made⟩
  simp only [get?_jsonFields, Option.map_eq_some_iff] at each
  refine ⟨fun field member => ?_, TypedValue.forall_ofMembers.2 fun field member value found => ?_⟩
  · obtain ⟨_, ⟨value, found, -⟩, -⟩ := each field member
    exact ⟨value, found⟩
  · obtain ⟨_, ⟨other, otherFound, rfl⟩, json, converted⟩ := each field member
    rw [Option.some.inj (found.symm.trans otherFound)]
    exact ⟨_, json, converted⟩

theorem exists_jsonItems {items : List Value} {type : FieldType}
    (each : ∀ item ∈ items, AlwaysWritesJson table ⟨item, type⟩) (path : String) (position : Nat) :
    ∃ jsons, jsonItems table items type path position = .ok jsons := by
  induction items generalizing position with
  | nil => exact ⟨[], rfl⟩
  | cons item rest ih =>
    obtain ⟨here, below⟩ := List.forall_mem_cons.1 each
    obtain ⟨json, first⟩ := here _
    obtain ⟨jsons, others⟩ := ih below (position + 1)
    exact ⟨json :: jsons, bind_eq_ok.2 ⟨json, first, bind_eq_ok.2 ⟨jsons, others, rfl⟩⟩⟩

theorem exists_jsonEntries {entries : List (Value × Value)} {key item : FieldType}
    (each : ∀ entry ∈ entries,
      AlwaysWritesJson table ⟨entry.1, key⟩ ∧ AlwaysWritesJson table ⟨entry.2, item⟩)
    (path : String) (position : Nat) :
    ∃ jsons, jsonEntries table entries key item path position = .ok jsons := by
  induction entries generalizing position with
  | nil => exact ⟨[], rfl⟩
  | cons entry rest ih =>
    obtain ⟨⟨keyAlways, itemAlways⟩, below⟩ := List.forall_mem_cons.1 each
    obtain ⟨keyJson, first⟩ := keyAlways (Convert.atIndex path position)
    obtain ⟨itemJson, second⟩ := itemAlways (Convert.atIndex path position)
    obtain ⟨jsons, others⟩ := ih below (position + 1)
    exact ⟨.array [keyJson, itemJson] :: jsons, bind_eq_ok.2 ⟨keyJson, first,
      bind_eq_ok.2 ⟨itemJson, second, bind_eq_ok.2 ⟨jsons, others, rfl⟩⟩⟩⟩

theorem exists_jsonMembers {fields : Record Value} {declared : List Field}
    (all : TypedValue.HasAll fields declared)
    (each : ∀ part ∈ TypedValue.ofMembers fields declared, AlwaysWritesJson table part)
    (path : String) :
    ∃ jsons, Convert.members (jsonFields table fields) path declared = .ok jsons := by
  refine Convert.exists_members.2 fun field member => ?_
  obtain ⟨value, found⟩ := all field member
  have always := TypedValue.forall_ofMembers.1 each field member value found
  refine ⟨toJson table value, ?_, always _⟩
  rw [get?_jsonFields, found, Option.map_some]

theorem exists_jsonOfCarried {payload : Payload Value} {shape : Shape} {path : String} :
    (∃ body, jsonOfCarried table payload shape path = .ok body) ↔
      TypedValue.Fills payload shape ∧ ∃ jsons,
        Convert.members (jsonFields table (TypedValue.carried payload)) path shape.members =
          .ok jsons := by
  constructor
  · rintro ⟨body, made⟩
    cases payload with
    | empty =>
      cases shape with
      | empty => exact ⟨.empty, [], rfl⟩
      | _ => cases made
    | named fields =>
      cases shape with
      | named declared =>
        obtain ⟨jsons, membersMade, -⟩ := bind_eq_ok.1 made
        exact ⟨.named (writesJson_of_members membersMade).1, jsons, membersMade⟩
      | _ => cases made
    | tuple items =>
      cases shape with
      | tuple types =>
        obtain ⟨counted, rest⟩ := then_eq_ok.1 made
        obtain ⟨jsons, elementsMade, -⟩ := bind_eq_ok.1 rest
        have sized := (Convert.checkArity_eq_ok.1 counted).trans (length_jsonElements items)
        rw [TypedValue.carried, jsonMembers_tuple path sized]
        exact ⟨.tuple sized, _, map_eq_ok.2 ⟨jsons, elementsMade, rfl⟩⟩
      | _ => cases made
  · rintro ⟨fills, jsons, made⟩
    cases fills with
    | empty => exact ⟨none, rfl⟩
    | named all => exact ⟨_, bind_eq_ok.2 ⟨jsons, made, rfl⟩⟩
    | tuple sized =>
      rw [TypedValue.carried, jsonMembers_tuple path sized] at made
      obtain ⟨elements, elementsMade, -⟩ := map_eq_ok.1 made
      have counted := sized.trans (@length_jsonElements table _).symm
      exact ⟨_, then_eq_ok.2 ⟨Convert.checkArity_eq_ok.2 counted,
        bind_eq_ok.2 ⟨elements, elementsMade, rfl⟩⟩⟩

theorem isReady_of_struct {typeName name path : String} {fields : Record Value} {json : Json}
    (made : toJson table (.struct typeName fields) (.defined name) path = .ok json) :
    IsReady table (WritesJson table) ⟨.struct typeName fields, .defined name⟩ := by
  obtain ⟨body, defined, rest⟩ := bind_eq_ok.1 made
  have known := Convert.definition_eq_ok.1 defined
  cases body with
  | struct declared =>
    simp only at rest
    split at rest
    next same =>
      subst same
      obtain ⟨jsons, membersMade, -⟩ := bind_eq_ok.1 rest
      obtain ⟨all, each⟩ := writesJson_of_members membersMade
      exact ⟨.struct known all, TypedValue.parts_struct known fields ▸ each⟩
    next => cases rest
  | enum variants => cases rest

theorem isReady_of_enum {typeName kind name path : String} {tag : UInt8} {payload : Payload Value}
    {json : Json}
    (made : toJson table (.enum typeName kind tag payload) (.defined name) path = .ok json) :
    IsReady table (WritesJson table) ⟨.enum typeName kind tag payload, .defined name⟩ := by
  obtain ⟨rfl, variants, variant, body, known, chosen, bodyMade, -⟩ :=
    convertEnum_eq_ok.1 ((toJson_enum ..).symm.trans made)
  obtain ⟨fills, jsons, membersMade⟩ := exists_jsonOfCarried.1 ⟨body, bodyMade⟩
  obtain ⟨-, each⟩ := writesJson_of_members membersMade
  exact ⟨.enum known chosen fills, TypedValue.parts_enum known chosen fills ▸ each⟩

theorem isReady_of_toJson {value : Value} {type : FieldType} {path : String} {json : Json}
    (made : toJson table value type path = .ok json) :
    IsReady table (WritesJson table) ⟨value, type⟩ := by
  cases value with
  | list items =>
    cases type with
    | vec item =>
      obtain ⟨jsons, itemsMade, -⟩ := map_eq_ok.1 made
      exact ⟨.vec items item, List.forall_mem_map.2 (writesJson_of_jsonItems itemsMade)⟩
    | array item length =>
      simp only [toJson] at made
      split at made
      next sized =>
        obtain ⟨jsons, itemsMade, -⟩ := map_eq_ok.1 made
        exact ⟨.array item sized, List.forall_mem_map.2 (writesJson_of_jsonItems itemsMade)⟩
      next => cases made
    | _ => exact isReady_of_leaf made
  | option content =>
    cases content with
    | none =>
      cases type with
      | option item => exact ⟨.option none item, fun _ member => by cases member⟩
      | _ => exact isReady_of_leaf made
    | some value =>
      cases type with
      | option item => exact ⟨.option _ item, List.forall_mem_singleton.2 ⟨path, json, made⟩⟩
      | _ => exact isReady_of_leaf made
  | map entries =>
    cases type with
    | hashMap key item =>
      obtain ⟨jsons, entriesMade, -⟩ := map_eq_ok.1 made
      have each := writesJson_of_jsonEntries entriesMade
      exact ⟨.map entries key item, TypedValue.forall_parts_map.2 each⟩
    | _ => exact isReady_of_leaf made
  | struct typeName fields =>
    cases type with
    | defined name => exact isReady_of_struct made
    | _ => exact isReady_of_leaf made
  | enum typeName kind tag payload =>
    cases type with
    | defined name => exact isReady_of_enum made
    | _ => cases payload <;> exact isReady_of_leaf made
  | _ => exact isReady_of_leaf made

theorem alwaysWritesJson_of_isReady {whole : TypedValue}
    (ready : IsReady table (AlwaysWritesJson table) whole) : AlwaysWritesJson table whole := by
  obtain ⟨form, each⟩ := ready
  intro path
  cases form with
  | bool b => exact ⟨_, rfl⟩
  | unsigned bound => exact ⟨_, if_pos bound⟩
  | signed bound => exact ⟨_, if_pos bound⟩
  | single x => exact ⟨_, rfl⟩
  | double x => exact ⟨_, rfl⟩
  | string s => exact ⟨_, rfl⟩
  | bytes b => exact ⟨_, rfl⟩
  | publicKey key => exact ⟨_, rfl⟩
  | vec items item =>
    obtain ⟨jsons, made⟩ := exists_jsonItems (List.forall_mem_map.1 each) path 0
    exact ⟨_, map_eq_ok.2 ⟨jsons, made, rfl⟩⟩
  | array item sized =>
    obtain ⟨jsons, made⟩ := exists_jsonItems (List.forall_mem_map.1 each) path 0
    simp only [toJson, if_pos sized]
    exact ⟨_, map_eq_ok.2 ⟨jsons, made, rfl⟩⟩
  | option content item =>
    cases content with
    | none => exact ⟨_, rfl⟩
    | some value => exact List.forall_mem_singleton.1 each path
  | map entries key item =>
    obtain ⟨jsons, made⟩ := exists_jsonEntries (TypedValue.forall_parts_map.1 each) path 0
    exact ⟨_, map_eq_ok.2 ⟨jsons, made, rfl⟩⟩
  | struct known all =>
    rw [TypedValue.parts_struct known] at each
    obtain ⟨jsons, made⟩ := exists_jsonMembers all each path
    exact ⟨_, by rw [toJson_struct known, made]; rfl⟩
  | enum known chosen fills =>
    rw [TypedValue.parts_enum known chosen fills] at each
    have made := exists_jsonMembers (TypedValue.hasAll_carried fills) each
    obtain ⟨body, bodyMade⟩ := exists_jsonOfCarried.2 ⟨fills, made _⟩
    rw [toJson_enum]
    exact ⟨_, convertEnum_eq_ok.2 ⟨rfl, _, _, body, known, chosen, bodyMade, rfl⟩⟩

/-! ## Trees -/

def WritesTree (table : Table) (whole : TypedValue) : Prop :=
  Belongs table whole.value whole.type

theorem exists_membersHaveTrees_iff_parts {fields : Record Value} {declared : List Field} :
    (∃ trees, MembersHaveTrees table fields declared trees) ↔
      TypedValue.HasAll fields declared ∧
        ∀ part ∈ TypedValue.ofMembers fields declared, WritesTree table part := by
  rw [exists_membersHaveTrees, TypedValue.forall_ofMembers, TypedValue.HasAll]
  constructor
  · intro each
    refine ⟨fun field member => (each field member).imp fun _ => And.left, ?_⟩
    intro field member value found
    obtain ⟨value', found', belongs⟩ := each field member
    exact Option.some.inj (found'.symm.trans found) ▸ belongs
  · rintro ⟨all, each⟩ field member
    obtain ⟨value, found⟩ := all field member
    exact ⟨value, found, each field member value found⟩

theorem exists_payloadHasTrees {payload : Payload Value} {shape : Shape} :
    (∃ trees, PayloadHasTrees table payload shape trees) ↔
      TypedValue.Fills payload shape ∧
        (∀ part ∈ TypedValue.ofMembers (TypedValue.carried payload) shape.members,
          WritesTree table part) ∧
        ∀ fields declared, payload = .named fields → shape = .named declared →
          ∀ key ∈ Record.keys fields, key ∈ declared.map Field.name := by
  constructor
  · rintro ⟨trees, has⟩
    cases has with
    | empty => exact ⟨.empty, by simp [Shape.members, TypedValue.ofMembers], by rintro _ _ ⟨⟩⟩
    | named complete members =>
      obtain ⟨all, each⟩ := exists_membersHaveTrees_iff_parts.1 ⟨trees, members⟩
      refine ⟨.named all, each, ?_⟩
      rintro _ _ ⟨⟩ ⟨⟩
      exact complete
    | tuple sized members =>
      obtain ⟨-, each⟩ := exists_membersHaveTrees_iff_parts.1 ⟨trees, members⟩
      exact ⟨.tuple sized, each, by rintro _ _ ⟨⟩⟩
  · rintro ⟨fills, each, complete⟩
    obtain ⟨trees, members⟩ :=
      exists_membersHaveTrees_iff_parts.2 ⟨TypedValue.hasAll_carried fills, each⟩
    cases fills with
    | empty => exact ⟨[], .empty⟩
    | named all => exact ⟨trees, .named (complete _ _ rfl rfl) members⟩
    | tuple sized => exact ⟨trees, .tuple sized members⟩

theorem isReady_of_hasTree {value : Value} {type : FieldType} {tree : Tree}
    (has : HasTree table value type tree) : IsReady table (WritesTree table) ⟨value, type⟩ := by
  cases has with
  | bool b => exact ⟨.bool b, fun _ member => by cases member⟩
  | unsigned bound => exact ⟨.unsigned bound, fun _ member => by cases member⟩
  | signed bound => exact ⟨.signed bound, fun _ member => by cases member⟩
  | single exact => exact ⟨.single _, fun _ member => by cases member⟩
  | double x => exact ⟨.double x, fun _ member => by cases member⟩
  | string s => exact ⟨.string s, fun _ member => by cases member⟩
  | bytes b => exact ⟨.bytes b, fun _ member => by cases member⟩
  | publicKey key => exact ⟨.publicKey key, fun _ member => by cases member⟩
  | vec items => exact ⟨.vec _ _, List.forall_mem_map.2 (belong_of_haveTrees items)⟩
  | array sized items => exact ⟨.array _ sized, List.forall_mem_map.2 (belong_of_haveTrees items)⟩
  | none item => exact ⟨.option none item, fun _ member => by cases member⟩
  | some inner => exact ⟨.option _ _, List.forall_mem_singleton.2 ⟨_, inner⟩⟩
  | map pairs =>
    exact ⟨.map _ _ _, TypedValue.forall_parts_map.2 (belong_of_pairsHaveTrees pairs)⟩
  | struct known complete members =>
    obtain ⟨all, each⟩ := exists_membersHaveTrees_iff_parts.1 ⟨_, members⟩
    exact ⟨.struct known all, TypedValue.parts_struct known _ ▸ each⟩
  | enum known chosen carried =>
    obtain ⟨fills, each, -⟩ := exists_payloadHasTrees.1 ⟨_, carried⟩
    exact ⟨.enum known chosen fills, TypedValue.parts_enum known chosen fills ▸ each⟩

/-- The check before a tree goes further than the one before JSON. -/
theorem not_isLoose_of_hasTree {value : Value} {type : FieldType} {tree : Tree}
    (has : HasTree table value type tree) : ¬TypedValue.IsLoose table ⟨value, type⟩ := by
  intro loose
  cases loose with
  | single number changed =>
    cases has with
    | single exact => simp [number, changed] at exact
  | struct declared present undeclared =>
    cases has with
    | struct known complete members =>
      cases known.symm.trans declared
      exact undeclared (complete _ present)
  | enum declared taken shape present undeclared =>
    cases has with
    | enum known chosen carried =>
      cases known.symm.trans declared
      cases chosen.symm.trans taken
      obtain ⟨-, -, complete⟩ := exists_payloadHasTrees.1 ⟨_, carried⟩
      exact undeclared (complete _ _ rfl shape _ present)

theorem writesTree_of_isReady {whole : TypedValue}
    (ready : IsReady table (WritesTree table) whole) (tight : ¬whole.IsLoose table) :
    WritesTree table whole := by
  obtain ⟨form, each⟩ := ready
  cases form with
  | bool b => exact ⟨_, .bool b⟩
  | unsigned bound => exact ⟨_, .unsigned bound⟩
  | signed bound => exact ⟨_, .signed bound⟩
  | single x =>
    by_cases number : x.isNaN = true
    · exact ⟨_, .single (.inl number)⟩
    · refine ⟨_, .single (.inr ?_)⟩
      by_contra changed
      exact tight (.single (Bool.not_eq_true _ ▸ number) changed)
  | double x => exact ⟨_, .double x⟩
  | string s => exact ⟨_, .string s⟩
  | bytes b => exact ⟨_, .bytes b⟩
  | publicKey key => exact ⟨_, .publicKey key⟩
  | vec items item => exact belongs_vec fun _ member => each _ (List.mem_map_of_mem member)
  | array item sized =>
    exact belongs_array sized fun _ member => each _ (List.mem_map_of_mem member)
  | option content item =>
    cases content with
    | none => exact belongs_none item
    | some value => exact belongs_some (each _ (List.mem_singleton_self _))
  | map entries key item => exact belongs_map (TypedValue.forall_parts_map.1 each)
  | struct known all =>
    rw [TypedValue.parts_struct known] at each
    obtain ⟨trees, members⟩ := exists_membersHaveTrees_iff_parts.2 ⟨all, each⟩
    refine ⟨_, .struct known (fun key present => ?_) members⟩
    by_contra undeclared
    exact tight (.struct known present undeclared)
  | enum known chosen fills =>
    rw [TypedValue.parts_enum known chosen fills] at each
    obtain ⟨trees, carried⟩ := exists_payloadHasTrees.2 ⟨fills, each, by
      rintro fields declared rfl shape key present
      by_contra undeclared
      exact tight (.enum known chosen shape present undeclared)⟩
    exact ⟨_, .enum known chosen carried⟩

theorem writesTree_iff {whole : TypedValue} :
    WritesTree table whole ↔ IsReady table (WritesTree table) whole ∧ ¬whole.IsLoose table :=
  ⟨fun ⟨_, has⟩ => ⟨isReady_of_hasTree has, not_isLoose_of_hasTree has⟩,
    fun ⟨ready, tight⟩ => writesTree_of_isReady ready tight⟩

/-! ## All the way down -/

theorem throughout_hasForm_of_writesJson {whole : TypedValue} (writes : WritesJson table whole) :
    whole.Throughout table (TypedValue.HasForm table) := by
  induction whole using TypedValue.induction_on_parts table with
  | step whole ih =>
    obtain ⟨path, json, made⟩ := writes
    obtain ⟨form, each⟩ := isReady_of_toJson made
    exact TypedValue.throughout_iff.2 ⟨form, fun part member => ih part member (each part member)⟩

theorem alwaysWritesJson_of_throughout {whole : TypedValue}
    (all : whole.Throughout table (TypedValue.HasForm table)) : AlwaysWritesJson table whole := by
  induction whole using TypedValue.induction_on_parts table with
  | step whole ih =>
    obtain ⟨form, each⟩ := TypedValue.throughout_iff.1 all
    exact alwaysWritesJson_of_isReady ⟨form, fun part member => ih part member (each part member)⟩

theorem exists_toJson_iff {value : Value} {type : FieldType} {path : String} :
    (∃ json, value.toJson table type path = .ok json) ↔
      TypedValue.Throughout table (TypedValue.HasForm table) ⟨value, type⟩ :=
  ⟨fun ⟨json, made⟩ => throughout_hasForm_of_writesJson ⟨path, json, made⟩,
    fun all => alwaysWritesJson_of_throughout all path⟩

theorem writesTree_iff_throughout (whole : TypedValue) :
    WritesTree table whole ↔
      whole.Throughout table (TypedValue.HasForm table) ∧
        whole.Throughout table fun inner => ¬inner.IsLoose table := by
  induction whole using TypedValue.induction_on_parts table with
  | step whole ih =>
    rw [writesTree_iff, IsReady, forall₂_congr ih, TypedValue.throughout_iff,
      @TypedValue.throughout_iff table fun inner => ¬inner.IsLoose table]
    simp only [forall_and]
    tauto

/-- A value has a tree if and only if it has a JSON form and nothing inside it is loose. -/
theorem exists_toTree_iff {value : Value} {type : FieldType} {path : String} :
    (∃ tree, value.toTree table type path = .ok tree) ↔
      (∃ json, value.toJson table type path = .ok json) ∧
        ∀ depth inner, TypedValue.Inside table depth ⟨value, type⟩ inner →
          ¬inner.IsLoose table := by
  rw [exists_toJson_iff]
  simp only [toTree_eq_ok]
  exact writesTree_iff_throughout ⟨value, type⟩

/-- A gauge with a level of 0.1, which no single is. -/
def tenthGauge : Value :=
  gaugeOf ⟨0x3fb999999999999a⟩ ⟨0x3ff0000000000000⟩

def labelledGauge : Value :=
  .struct "Gauge"
    [("level", .float ⟨0x3ff0000000000000⟩), ("limit", .option none), ("label", .string "main")]

/-- Both gauges have a JSON form, and neither has a tree. -/
theorem not_exists_toTree_gauge :
    ((∃ json, tenthGauge.toJson ⟨gauges⟩ (.defined "Gauge") "Gauge" = .ok json) ∧
      ¬∃ tree, tenthGauge.toTree ⟨gauges⟩ (.defined "Gauge") "Gauge" = .ok tree) ∧
    (∃ json, labelledGauge.toJson ⟨gauges⟩ (.defined "Gauge") "Gauge" = .ok json) ∧
      ¬∃ tree, labelledGauge.toTree ⟨gauges⟩ (.defined "Gauge") "Gauge" = .ok tree := by
  refine ⟨⟨⟨_, rfl⟩, ?_⟩, ⟨_, rfl⟩, ?_⟩
  · rintro ⟨tree, made⟩
    cases made
  · rintro ⟨tree, made⟩
    cases made

end Value

end WireSchema
