import Mathlib.Data.Option.Defs
import Mathlib.Logic.Relation
import WireSchema.Proofs.Bundle
import WireSchema.Proofs.Convert.Ordered

/-! Values whose records have their entries in another order. Whatever is written of such values is
the same, because members are looked up by name; only the entry that an error names may differ. -/

namespace WireSchema

open Relation Outcome

namespace Convert

/-- Members are found by name alone. -/
theorem members_congr {converters converters' : Record (Converter β)}
    (same : ∀ key, Record.get? converters key = Record.get? converters' key) (path : String)
    (declared : List Field) :
    members converters path declared = members converters' path declared := by
  induction declared with
  | nil => rfl
  | cons field rest ih => simp only [members, same, ih]

end Convert

namespace Value

/- One record somewhere in a value is given another order. Records have each key once. -/
mutual

inductive Reorder : Value → Value → Prop
  | list {before after : List Value} {value value' : Value} (inner : Reorder value value') :
      Reorder (.list (before ++ value :: after)) (.list (before ++ value' :: after))
  | option {value value' : Value} (inner : Reorder value value') :
      Reorder (.option (some value)) (.option (some value'))
  | key {before after : List (Value × Value)} {key key' item : Value} (inner : Reorder key key') :
      Reorder (.map (before ++ (key, item) :: after)) (.map (before ++ (key', item) :: after))
  | item {before after : List (Value × Value)} {key item item' : Value}
      (inner : Reorder item item') :
      Reorder (.map (before ++ (key, item) :: after)) (.map (before ++ (key, item') :: after))
  | struct {name : String} {fields fields' : Record Value} (inner : FieldsReorder fields fields') :
      Reorder (.struct name fields) (.struct name fields')
  | enum {name kind : String} {tag : UInt8} {payload payload' : Payload Value}
      (inner : PayloadReorder payload payload') :
      Reorder (.enum name kind tag payload) (.enum name kind tag payload')

inductive FieldsReorder : Record Value → Record Value → Prop
  | permuted {fields fields' : Record Value} (distinct : (Record.keys fields).Nodup)
      (perm : fields.Perm fields') : FieldsReorder fields fields'
  | inside {before after : Record Value} {key : String} {value value' : Value}
      (inner : Reorder value value') :
      FieldsReorder (before ++ (key, value) :: after) (before ++ (key, value') :: after)

inductive PayloadReorder : Payload Value → Payload Value → Prop
  | named {fields fields' : Record Value} (inner : FieldsReorder fields fields') :
      PayloadReorder (.named fields) (.named fields')
  | tuple {before after : List Value} {value value' : Value} (inner : Reorder value value') :
      PayloadReorder (.tuple (before ++ value :: after)) (.tuple (before ++ value' :: after))

end

/-- The same is written of two values: each tree of one is a tree of the other, and their JSON forms
are the same, as well as the errors instead of one. -/
structure Alike (table : Table) (value value' : Value) : Prop where
  trees : ∀ type tree, HasTree table value type tree ↔ HasTree table value' type tree
  jsons : toJson table value = toJson table value'

structure PayloadAlike (table : Table) (payload payload' : Payload Value) : Prop where
  trees : ∀ shape trees,
    PayloadHasTrees table payload shape trees ↔ PayloadHasTrees table payload' shape trees
  jsons : jsonOfCarried table payload = jsonOfCarried table payload'

def FieldsAlike (table : Table) (fields fields' : Record Value) : Prop :=
  ∀ key, Option.Rel (Alike table) (Record.get? fields key) (Record.get? fields' key)

variable {table : Table} {value value' : Value}

theorem Alike.refl (value : Value) : Alike table value value :=
  ⟨fun _ _ => Iff.rfl, rfl⟩

theorem Alike.symm (alike : Alike table value value') : Alike table value' value :=
  ⟨fun type tree => (alike.trees type tree).symm, alike.jsons.symm⟩

theorem Alike.trans {middle : Value} (first : Alike table value middle)
    (second : Alike table middle value') : Alike table value value' :=
  ⟨fun type tree => (first.trees type tree).trans (second.trees type tree),
    first.jsons.trans second.jsons⟩

/-! ## Records -/

section

variable {fields fields' : Record Value}

theorem FieldsAlike.refl (fields : Record Value) : FieldsAlike table fields fields := by
  intro key
  cases Record.get? fields key with
  | none => exact .none
  | some value => exact .some (Alike.refl value)

theorem FieldsAlike.cons (alike : Alike table value value') (below : FieldsAlike table fields fields')
    (key : String) : FieldsAlike table ((key, value) :: fields) ((key, value') :: fields') := by
  intro other
  rw [Record.get?_cons, Record.get?_cons]
  split
  next => exact .some alike
  next => exact below other

theorem FieldsAlike.symm (alike : FieldsAlike table fields fields') :
    FieldsAlike table fields' fields := by
  intro key
  have here := alike key
  generalize Record.get? fields key = found, Record.get? fields' key = found' at here ⊢
  cases here with
  | none => exact .none
  | some same => exact .some same.symm

theorem FieldsAlike.of_perm (distinct : (Record.keys fields).Nodup) (perm : fields.Perm fields') :
    FieldsAlike table fields fields' := by
  intro key
  rw [Record.get?_of_perm distinct perm key]
  exact FieldsAlike.refl fields key

theorem FieldsAlike.middle (alike : Alike table value value') (before after : Record Value)
    (key : String) :
    FieldsAlike table (before ++ (key, value) :: after) (before ++ (key, value') :: after) := by
  induction before with
  | nil => exact .cons alike (.refl after) key
  | cons first rest ih => exact .cons (.refl first.2) ih first.1

theorem FieldsAlike.keyedFrom (alike : Alike table value value') (before after : List Value)
    (position : Nat) :
    FieldsAlike table (keyedFrom position (before ++ value :: after))
      (keyedFrom position (before ++ value' :: after)) := by
  induction before generalizing position with
  | nil => exact .cons alike (.refl _) _
  | cons first rest ih => exact .cons (.refl first) (ih (position + 1)) _

theorem FieldsAlike.exists_get? (alike : FieldsAlike table fields fields') {key : String}
    (found : Record.get? fields key = some value) :
    ∃ value', Record.get? fields' key = some value' ∧ Alike table value value' := by
  have here := alike key
  rw [found] at here
  generalize Record.get? fields' key = found' at here ⊢
  cases here with
  | some same => exact ⟨_, rfl, same⟩

theorem FieldsAlike.mem_keys (alike : FieldsAlike table fields fields') {key : String}
    (present : key ∈ Record.keys fields') : key ∈ Record.keys fields := by
  cases found : Record.get? fields' key with
  | none => exact absurd present ((Record.get?_eq_none fields' key).1 found)
  | some value =>
    obtain ⟨value', here, -⟩ := alike.symm.exists_get? found
    exact Record.mem_keys_of_get? here

theorem FieldsAlike.get?_jsonFields (alike : FieldsAlike table fields fields') (key : String) :
    Record.get? (jsonFields table fields) key = Record.get? (jsonFields table fields') key := by
  have here := alike key
  rw [Value.get?_jsonFields, Value.get?_jsonFields]
  generalize Record.get? fields key = found, Record.get? fields' key = found' at here ⊢
  cases here with
  | none => rfl
  | some same => exact congrArg some same.jsons

theorem FieldsAlike.membersHaveTrees (alike : FieldsAlike table fields fields')
    {declared : List Field} {trees : Record Tree}
    (members : MembersHaveTrees table fields declared trees) :
    MembersHaveTrees table fields' declared trees := by
  induction declared generalizing trees with
  | nil =>
    cases members
    exact .nil
  | cons field rest ih =>
    cases members with
    | cons found first others =>
      obtain ⟨value', found', same⟩ := alike.exists_get? found
      exact .cons found' ((same.trees _ _).1 first) (ih others)

end

/-! ## Lists -/

theorem haveTrees_middle (alike : Alike table value value') {before after : List Value}
    {item : FieldType} {trees : List Tree}
    (items : HaveTrees table (before ++ value :: after) item trees) :
    HaveTrees table (before ++ value' :: after) item trees := by
  induction before generalizing trees with
  | nil =>
    cases items with
    | cons first rest => exact .cons ((alike.trees _ _).1 first) rest
  | cons other others ih =>
    cases items with
    | cons first rest => exact .cons first (ih rest)

theorem jsonItems_middle (alike : Alike table value value') (before after : List Value)
    (item : FieldType) (path : String) (position : Nat) :
    jsonItems table (before ++ value :: after) item path position =
      jsonItems table (before ++ value' :: after) item path position := by
  induction before generalizing position with
  | nil => simp only [List.nil_append, jsonItems, alike.jsons]
  | cons other others ih => simp only [List.cons_append, jsonItems, ih]

theorem jsonElements_middle (alike : Alike table value value') (before after : List Value) :
    jsonElements table (before ++ value :: after) =
      jsonElements table (before ++ value' :: after) := by
  induction before with
  | nil => simp only [List.nil_append, jsonElements, alike.jsons]
  | cons other others ih => simp only [List.cons_append, jsonElements, ih]

section

variable {key key' item item' : Value} (keys : Alike table key key') (items : Alike table item item')

include keys items

theorem pairsHaveTrees_middle {before after : List (Value × Value)} {keyType itemType : FieldType}
    {trees : List (Tree × Tree)}
    (pairs : PairsHaveTrees table (before ++ (key, item) :: after) keyType itemType trees) :
    PairsHaveTrees table (before ++ (key', item') :: after) keyType itemType trees := by
  induction before generalizing trees with
  | nil =>
    cases pairs with
    | cons first second rest =>
      exact .cons ((keys.trees _ _).1 first) ((items.trees _ _).1 second) rest
  | cons other others ih =>
    cases pairs with
    | cons first second rest => exact .cons first second (ih rest)

theorem jsonEntries_middle (before after : List (Value × Value)) (keyType itemType : FieldType)
    (path : String) (position : Nat) :
    jsonEntries table (before ++ (key, item) :: after) keyType itemType path position =
      jsonEntries table (before ++ (key', item') :: after) keyType itemType path position := by
  induction before generalizing position with
  | nil => simp only [List.nil_append, jsonEntries, keys.jsons, items.jsons]
  | cons other others ih => simp only [List.cons_append, jsonEntries, ih]

end

/-! ## Values -/

theorem hasTree_list (alike : Alike table value value') {before after : List Value}
    {type : FieldType} {tree : Tree}
    (has : HasTree table (.list (before ++ value :: after)) type tree) :
    HasTree table (.list (before ++ value' :: after)) type tree := by
  cases has with
  | vec items => exact .vec (haveTrees_middle alike items)
  | array sized items =>
    refine .array (Eq.trans ?_ sized) (haveTrees_middle alike items)
    rw [List.length_append, List.length_append, List.length_cons, List.length_cons]

theorem Alike.list (alike : Alike table value value') (before after : List Value) :
    Alike table (.list (before ++ value :: after)) (.list (before ++ value' :: after)) where
  trees _ _ := ⟨hasTree_list alike, hasTree_list alike.symm⟩
  jsons := by
    funext type path
    cases type with
    | vec item => simp only [toJson, jsonItems_middle alike]
    | array item length =>
      simp only [toJson, List.length_append, List.length_cons, jsonItems_middle alike]
    | primitive p => cases p <;> rfl
    | _ => rfl

theorem hasTree_some (alike : Alike table value value') {type : FieldType} {tree : Tree}
    (has : HasTree table (.option (some value)) type tree) :
    HasTree table (.option (some value')) type tree := by
  cases has with
  | some inner => exact .some ((alike.trees _ _).1 inner)

theorem Alike.option (alike : Alike table value value') :
    Alike table (.option (some value)) (.option (some value')) where
  trees _ _ := ⟨hasTree_some alike, hasTree_some alike.symm⟩
  jsons := by
    funext type path
    cases type with
    | option item => simp only [toJson, alike.jsons]
    | primitive p => cases p <;> rfl
    | _ => rfl

theorem hasTree_map {key key' item item' : Value} (keys : Alike table key key')
    (items : Alike table item item') {before after : List (Value × Value)} {type : FieldType}
    {tree : Tree} (has : HasTree table (.map (before ++ (key, item) :: after)) type tree) :
    HasTree table (.map (before ++ (key', item') :: after)) type tree := by
  cases has with
  | map pairs => exact .map (pairsHaveTrees_middle keys items pairs)

theorem Alike.map {key key' item item' : Value} (keys : Alike table key key')
    (items : Alike table item item') (before after : List (Value × Value)) :
    Alike table (.map (before ++ (key, item) :: after)) (.map (before ++ (key', item') :: after)) where
  trees _ _ := ⟨hasTree_map keys items, hasTree_map keys.symm items.symm⟩
  jsons := by
    funext type path
    cases type with
    | hashMap keyType itemType => simp only [toJson, jsonEntries_middle keys items]
    | primitive p => cases p <;> rfl
    | _ => rfl

section

variable {fields fields' : Record Value}

theorem hasTree_struct (alike : FieldsAlike table fields fields') {name : String}
    {type : FieldType} {tree : Tree} (has : HasTree table (.struct name fields) type tree) :
    HasTree table (.struct name fields') type tree := by
  cases has with
  | struct known complete members =>
    exact .struct known (fun key present => complete key (alike.mem_keys present))
      (alike.membersHaveTrees members)

theorem FieldsAlike.struct (alike : FieldsAlike table fields fields') (name : String) :
    Alike table (.struct name fields) (.struct name fields') where
  trees _ _ := ⟨hasTree_struct alike, hasTree_struct alike.symm⟩
  jsons := by
    funext type path
    cases type with
    | defined other =>
      simp only [toJson, Convert.members_congr alike.get?_jsonFields]
      rfl
    | primitive p => cases p <;> rfl
    | _ => rfl

theorem payloadHasTrees_named (alike : FieldsAlike table fields fields') {shape : Shape}
    {trees : Record Tree} (has : PayloadHasTrees table (.named fields) shape trees) :
    PayloadHasTrees table (.named fields') shape trees := by
  cases has with
  | named complete members =>
    exact .named (fun key present => complete key (alike.mem_keys present))
      (alike.membersHaveTrees members)

theorem FieldsAlike.named (alike : FieldsAlike table fields fields') :
    PayloadAlike table (.named fields) (.named fields') where
  trees _ _ := ⟨payloadHasTrees_named alike, payloadHasTrees_named alike.symm⟩
  jsons := by
    funext shape path
    cases shape with
    | named declared =>
      rw [jsonOfCarried_named, jsonOfCarried_named,
        Convert.members_congr alike.get?_jsonFields]
    | _ => rfl

end

theorem payloadHasTrees_tuple (alike : Alike table value value') {before after : List Value}
    {shape : Shape} {trees : Record Tree}
    (has : PayloadHasTrees table (.tuple (before ++ value :: after)) shape trees) :
    PayloadHasTrees table (.tuple (before ++ value' :: after)) shape trees := by
  cases has with
  | tuple sized members =>
    refine .tuple (sized.trans ?_) ((FieldsAlike.keyedFrom alike before after 0).membersHaveTrees
      members)
    rw [List.length_append, List.length_append, List.length_cons, List.length_cons]

theorem Alike.tuple (alike : Alike table value value') (before after : List Value) :
    PayloadAlike table (.tuple (before ++ value :: after)) (.tuple (before ++ value' :: after)) where
  trees _ _ := ⟨payloadHasTrees_tuple alike, payloadHasTrees_tuple alike.symm⟩
  jsons := by
    funext shape path
    simp only [jsonOfCarried, jsonElements_middle alike]

theorem hasTree_enum {payload payload' : Payload Value} (alike : PayloadAlike table payload payload')
    {name kind : String} {tag : UInt8} {type : FieldType} {tree : Tree}
    (has : HasTree table (.enum name kind tag payload) type tree) :
    HasTree table (.enum name kind tag payload') type tree := by
  cases has with
  | enum known chosen carried => exact .enum known chosen ((alike.trees _ _).1 carried)

theorem PayloadAlike.symm {payload payload' : Payload Value}
    (alike : PayloadAlike table payload payload') : PayloadAlike table payload' payload :=
  ⟨fun shape trees => (alike.trees shape trees).symm, alike.jsons.symm⟩

theorem PayloadAlike.enum {payload payload' : Payload Value}
    (alike : PayloadAlike table payload payload') (name kind : String) (tag : UInt8) :
    Alike table (.enum name kind tag payload) (.enum name kind tag payload') where
  trees _ _ := ⟨hasTree_enum alike, hasTree_enum alike.symm⟩
  jsons := by
    funext type path
    cases type with
    | defined other =>
      rw [toJson_enum, toJson_enum, convertEnum, convertEnum, alike.jsons]
      rfl
    | primitive p => cases p <;> rfl
    | _ => rfl

/-! ## Reordering -/

/- Follows the derivation of the reordering. -/
mutual

theorem alike_of_reorder {value value' : Value} : Reorder value value' → Alike table value value'
  | .list inner => (alike_of_reorder inner).list _ _
  | .option inner => (alike_of_reorder inner).option
  | .key inner => (alike_of_reorder inner).map (.refl _) _ _
  | .item inner => Alike.map (.refl _) (alike_of_reorder inner) _ _
  | .struct inner => (fieldsAlike_of_reorder inner).struct _
  | .enum inner => (payloadAlike_of_reorder inner).enum _ _ _
termination_by structural reorder => reorder

theorem fieldsAlike_of_reorder {fields fields' : Record Value} :
    FieldsReorder fields fields' → FieldsAlike table fields fields'
  | .permuted distinct perm => .of_perm distinct perm
  | .inside inner => .middle (alike_of_reorder inner) _ _ _
termination_by structural reorder => reorder

theorem payloadAlike_of_reorder {payload payload' : Payload Value} :
    PayloadReorder payload payload' → PayloadAlike table payload payload'
  | .named inner => (fieldsAlike_of_reorder inner).named
  | .tuple inner => (alike_of_reorder inner).tuple _ _
termination_by structural reorder => reorder

end

theorem alike_of_reflTransGen (reordered : ReflTransGen Reorder value value') :
    Alike table value value' := by
  induction reordered with
  | refl => exact .refl value
  | tail _ step ih => exact ih.trans (alike_of_reorder step)

end Value

namespace Bundle

variable {bundle : Bundle} {value value' : Value}

theorem encode_of_alike (alike : Value.Alike bundle.table value value')
    (accepted : ∃ tree, bundle.treeOfValue value = .ok tree) :
    bundle.encode value = bundle.encode value' := by
  obtain ⟨tree, made⟩ := accepted
  have made' : bundle.treeOfValue value' = .ok tree :=
    Value.toTree_eq_ok.2 ((alike.trees _ tree).1 (Value.toTree_eq_ok.1 made))
  rw [encode, encode, made, made']

theorem exists_checked_iff :
    (∃ result, bundle.checked value = .ok result) ↔ ∃ tree, bundle.treeOfValue value = .ok tree :=
  exists_bind_pure

theorem exists_checked_of_alike (alike : Value.Alike bundle.table value value') :
    (∃ result, bundle.checked value = .ok result) ↔
      ∃ result, bundle.checked value' = .ok result := by
  simp only [exists_checked_iff, treeOfValue, Value.toTree_eq_ok, alike.trees]

end Bundle

namespace Table

/-- The order of the entries in the records of a value shows nowhere. Values that differ in it alone
have the same trees and the same JSON forms, with keys in the order of declaration, and a bundle
accepts both or none. A value that it accepts it encodes as it does the other, be the outcome bytes
or an error. -/
theorem reordering_invisible (table : Table) :
    (∀ value value' type, ReflTransGen Value.Reorder value value' →
      (∀ path tree, Value.toTree table value type path = .ok tree ↔
        Value.toTree table value' type path = .ok tree) ∧
      (∀ path, Value.toJson table value type path = Value.toJson table value' type path) ∧
      ∀ path tree, Value.toTree table value type path = .ok tree →
        tree.IsOrdered table type ∧
        ∀ path json, Value.toJson table value type path = .ok json →
          json.IsOrdered table type) ∧
    ∀ bundle : Bundle, bundle.table = table →
      (∀ value value', ReflTransGen Value.Reorder value value' →
        (∃ tree, bundle.treeOfValue value = .ok tree) →
        bundle.encode value = bundle.encode value') ∧
      (∀ fields fields', ReflTransGen Value.FieldsReorder fields fields' →
        ((∃ value, bundle.constructStruct fields = .ok value) ↔
          ∃ value, bundle.constructStruct fields' = .ok value)) ∧
      ∀ kind payload payload', ReflTransGen Value.PayloadReorder payload payload' →
        ((∃ value, bundle.constructEnum kind payload = .ok value) ↔
          ∃ value, bundle.constructEnum kind payload' = .ok value) := by
  refine ⟨fun value value' type reordered => ?_, ?_⟩
  · have alike : Value.Alike table value value' := Value.alike_of_reflTransGen reordered
    refine ⟨fun path tree => ?_, fun path => ?_, fun path tree made => ?_⟩
    · rw [Value.toTree_eq_ok, Value.toTree_eq_ok, alike.trees]
    · rw [alike.jsons]
    · have has := Value.toTree_eq_ok.1 made
      exact ⟨Value.isOrdered_of_hasTree has, fun _ _ => Value.isOrdered_of_toJson has⟩
  · rintro bundle rfl
    refine ⟨fun value value' reordered => ?_, fun fields fields' reordered => ?_,
      fun kind payload payload' reordered => ?_⟩
    · exact Bundle.encode_of_alike (Value.alike_of_reflTransGen reordered)
    · have whole : ReflTransGen Value.Reorder (.struct bundle.name fields)
          (.struct bundle.name fields') :=
        reordered.lift _ fun _ _ inner => Value.Reorder.struct inner
      exact Bundle.exists_checked_of_alike (Value.alike_of_reflTransGen whole)
    · rw [Bundle.constructEnum, Bundle.constructEnum]
      cases bundle.variant kind with
      | error error => exact Iff.rfl
      | ok chosen =>
        have whole : ReflTransGen Value.Reorder
            (.enum bundle.name chosen.2.name (Convert.tagOf chosen.1) payload)
            (.enum bundle.name chosen.2.name (Convert.tagOf chosen.1) payload') :=
          reordered.lift _ fun _ _ inner => Value.Reorder.enum inner
        exact Bundle.exists_checked_of_alike (Value.alike_of_reflTransGen whole)

/-- A marked node with another one behind it. The fields of both are the other way round than they
were declared. -/
def reversedNodes : Value :=
  .struct "Node" [
    ("next", .option (some (.struct "Node" [("next", .option none),
      ("mark", .enum "Mark" "Plain" 0 .empty)]))),
    ("mark", .enum "Mark" "Weighed" 1 (.tuple [.float ⟨0x3ff8000000000000⟩]))]

def declaredNodes : Value :=
  .struct "Node" [
    ("mark", .enum "Mark" "Weighed" 1 (.tuple [.float ⟨0x3ff8000000000000⟩])),
    ("next", .option (some (.struct "Node" [("mark", .enum "Mark" "Plain" 0 .empty),
      ("next", .option none)])))]

theorem reordering_invisible_nodes :
    ReflTransGen Value.Reorder declaredNodes reversedNodes ∧
    ∃ bundle, Catalog.catalogOfChain.bundle "Node" = .ok bundle ∧
      bundle.encode reversedNodes = .ok [1, 0, 0, 192, 63, 1, 0, 0] ∧
      ∃ tree, bundle.treeOfValue reversedNodes = .ok tree ∧
        tree.IsOrdered ⟨Catalog.chain.types⟩ (.defined "Node") := by
  have outer : Value.Reorder declaredNodes (.struct "Node" [
      ("next", .option (some (.struct "Node" [("mark", .enum "Mark" "Plain" 0 .empty),
        ("next", .option none)]))),
      ("mark", .enum "Mark" "Weighed" 1 (.tuple [.float ⟨0x3ff8000000000000⟩]))]) :=
    .struct (.permuted (by decide) (.swap _ _ _))
  have inner : Value.FieldsReorder
      [("mark", .enum "Mark" "Plain" 0 .empty), ("next", .option none)]
      [("next", .option none), ("mark", .enum "Mark" "Plain" 0 .empty)] :=
    .permuted (by decide) (.swap _ _ _)
  have reordered : ReflTransGen Value.Reorder declaredNodes reversedNodes :=
    (ReflTransGen.single outer).tail
      (.struct (@Value.FieldsReorder.inside [] _ _ _ _ (.option (.struct inner))))
  obtain ⟨written, bundles⟩ := reordering_invisible ⟨Catalog.chain.types⟩
  obtain ⟨trees, -, ordered⟩ := written _ _ (.defined "Node") reordered
  obtain ⟨bundle, made, table⟩ : ∃ bundle, Catalog.catalogOfChain.bundle "Node" = .ok bundle ∧
      bundle.table = ⟨Catalog.chain.types⟩ := ⟨_, rfl, rfl⟩
  obtain ⟨encodes, -, -⟩ := bundles bundle table
  cases made
  obtain ⟨tree, converted⟩ : ∃ tree, Value.toTree ⟨Catalog.chain.types⟩ declaredNodes
      (.defined "Node") "Node" = .ok tree := ⟨_, rfl⟩
  exact ⟨reordered, _, rfl, (encodes _ _ reordered ⟨tree, converted⟩).symm.trans rfl, tree,
    (trees _ _).1 converted, (ordered _ _ converted).1⟩

end Table

end WireSchema
