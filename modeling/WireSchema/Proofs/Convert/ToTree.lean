import WireSchema.Proofs.Convert.Members

/-! Trees of values. The conversion of a value succeeds exactly if the value has a tree at the
type, and gives this tree wherever the value stands. -/

namespace WireSchema

open Outcome

namespace Value

variable {table : Table}

/-! ## From conversions to trees -/

theorem hasTree_of_treeOfValue {p : Primitive} {value : Value} {path : String} {tree : Tree}
    (made : p.treeOfValue value path = .ok tree) : HasTree table value (.primitive p) tree := by
  unfold Primitive.treeOfValue at made
  simp only [Convert.mismatch] at made
  split at made
  next b =>
    cases made
    exact .bool b
  next =>
    split at made
    next bound =>
      cases made
      exact .unsigned bound
    next => cases made
  next =>
    split at made
    next bound =>
      cases made
      exact .signed bound
    next => cases made
  next =>
    split at made
    next exact =>
      cases made
      exact .single (by simpa using exact)
    next => cases made
  next x =>
    cases made
    exact .double x
  next s =>
    cases made
    exact .string s
  next b =>
    cases made
    exact .bytes b
  next key =>
    cases made
    exact .publicKey key
  next => cases made

theorem rejected_ne_ok (value : Value) (type : FieldType) (path : String) (result : α) :
    value.rejected table type path ≠ .ok result := by
  intro made
  cases type with
  | defined name =>
    obtain ⟨body, -, rest⟩ := bind_eq_ok.1 made
    cases body with
    | struct fields => cases rest
    | enum variants => cases rest
  | _ => cases made

theorem hasTree_of_leaf {value : Value} {type : FieldType} {path : String} {tree : Tree}
    (made : treeOfLeaf table value type path = .ok tree) : HasTree table value type tree := by
  unfold treeOfLeaf at made
  split at made
  next => exact hasTree_of_treeOfValue made
  next => exact absurd made (rejected_ne_ok _ _ _ _)

def OnlyTrees (table : Table) (value : Value) : Prop :=
  ∀ type path tree, toTree table value type path = .ok tree → HasTree table value type tree

theorem membersHaveTrees_of_members {fields : Record Value} {path : String} {declared : List Field}
    {trees : Record Tree}
    (sound : ∀ key value, Record.get? fields key = some value → OnlyTrees table value)
    (made : Convert.members (treeFields table fields) path declared = .ok trees) :
    MembersHaveTrees table fields declared trees := by
  have all := Convert.members_eq_ok.1 made
  clear made
  induction all with
  | nil => exact .nil
  | @cons field entry declared trees first _ ih =>
    obtain ⟨key, tree⟩ := entry
    obtain ⟨named, convert, found, converted⟩ := first
    rw [get?_treeFields, Option.map_eq_some_iff] at found
    obtain ⟨value, here, rfl⟩ := found
    cases named
    exact .cons here (sound _ _ here _ _ _ converted) ih

/-- A record is converted if no field stands beside the declared ones. -/
theorem membersHaveTrees_of_treeOfFields {fields : Record Value} {path : String}
    {declared : List Field} {tree : Tree}
    (sound : ∀ key value, Record.get? fields key = some value → OnlyTrees table value)
    (made : treeOfFields declared (treeFields table fields) path = .ok tree) :
    ∃ trees, tree = .record trees ∧
      (∀ key ∈ Record.keys fields, key ∈ declared.map Field.name) ∧
      MembersHaveTrees table fields declared trees := by
  obtain ⟨trees, complete, membersMade, rfl⟩ := treeOfFields_eq_ok.1 made
  rw [keys_treeFields] at complete
  exact ⟨trees, rfl, complete, membersHaveTrees_of_members sound membersMade⟩

theorem payloadHasTrees_of_named {fields : Record Value} {shape : Shape} {path : String}
    {tree : Tree}
    (sound : ∀ key value, Record.get? fields key = some value → OnlyTrees table value)
    (made : treeOfCarried table (.named fields) shape path = .ok tree) :
    ∃ trees, tree = .record trees ∧ PayloadHasTrees table (.named fields) shape trees := by
  obtain ⟨declared, rfl, fieldsMade⟩ := treeOfPayload_named.1 made
  obtain ⟨trees, rfl, complete, members⟩ := membersHaveTrees_of_treeOfFields sound fieldsMade
  exact ⟨trees, rfl, .named complete members⟩

theorem payloadHasTrees_of_tuple {items : List Value} {shape : Shape} {path : String} {tree : Tree}
    (sound : ∀ value ∈ items, OnlyTrees table value)
    (made : treeOfCarried table (.tuple items) shape path = .ok tree) :
    ∃ trees, tree = .record trees ∧ PayloadHasTrees table (.tuple items) shape trees := by
  obtain ⟨types, trees, rfl, sized, elementsMade, rfl⟩ := treeOfPayload_tuple.1 made
  rw [length_treeElements] at sized
  have membersMade : Convert.members (treeFields table (keyedFrom 0 items)) path
      (Shape.tuple types).members = .ok (keyedFrom 0 trees) := by
    rw [members_tuple, treeMembers_tuple path sized, elementsMade]
    rfl
  have members := membersHaveTrees_of_members
    (fun _ _ found => sound _ (mem_of_get?_keyedFrom found)) membersMade
  exact ⟨keyedFrom 0 trees, rfl, .tuple sized members⟩

/- Follows the recursion of the conversion. The fields of a record are converted in the order of
declaration, and so what is known of them is known by key. -/
mutual

theorem hasTree_of_toTree : (value : Value) → ∀ type path tree,
    toTree table value type path = .ok tree → HasTree table value type tree
  | .list items, type, path, tree, made => by
    cases type with
    | vec item =>
      obtain ⟨trees, itemsMade, rfl⟩ := map_eq_ok.1 made
      exact .vec (haveTrees_of_treeItems items _ _ _ _ itemsMade)
    | array item length =>
      simp only [toTree] at made
      split at made
      next sized =>
        obtain ⟨trees, itemsMade, rfl⟩ := map_eq_ok.1 made
        exact .array sized (haveTrees_of_treeItems items _ _ _ _ itemsMade)
      next => cases made
    | _ => exact hasTree_of_leaf made
  | .option none, type, path, tree, made => by
    cases type with
    | option item =>
      cases made
      exact .none item
    | _ => exact hasTree_of_leaf made
  | .option (some value), type, path, tree, made => by
    cases type with
    | option item =>
      obtain ⟨inner, innerMade, rfl⟩ := map_eq_ok.1 made
      exact .some (hasTree_of_toTree value _ _ _ innerMade)
    | _ => exact hasTree_of_leaf made
  | .map entries, type, path, tree, made => by
    cases type with
    | hashMap key item =>
      obtain ⟨trees, entriesMade, rfl⟩ := map_eq_ok.1 made
      exact .map (pairsHaveTrees_of_treeEntries entries _ _ _ _ _ entriesMade)
    | _ => exact hasTree_of_leaf made
  | .struct typeName fields, type, path, tree, made => by
    cases type with
    | defined name =>
      obtain ⟨body, known, rest⟩ := bind_eq_ok.1 made
      rw [Convert.definition_eq_ok] at known
      cases body with
      | struct declared =>
        simp only at rest
        split at rest
        next same =>
          subst same
          obtain ⟨trees, rfl, complete, members⟩ :=
            membersHaveTrees_of_treeOfFields (hasTree_of_get? fields) rest
          exact .struct known complete members
        next => cases rest
      | enum variants => cases rest
    | _ => exact hasTree_of_leaf made
  | .enum typeName kind tag payload, type, path, tree, made => by
    cases type with
    | defined name =>
      obtain ⟨rfl, variants, variant, carried, known, chosen, carriedMade, rfl⟩ :=
        convertEnum_eq_ok.1 ((toTree_enum ..).symm.trans made)
      cases payload with
      | empty =>
        obtain ⟨shape, rfl⟩ := treeOfPayload_empty.1 carriedMade
        exact .enum known chosen (shape ▸ .empty)
      | named fields =>
        obtain ⟨trees, rfl, has⟩ := payloadHasTrees_of_named (hasTree_of_get? fields) carriedMade
        exact .enum known chosen has
      | tuple items =>
        obtain ⟨trees, rfl, has⟩ := payloadHasTrees_of_tuple (hasTree_of_mem items) carriedMade
        exact .enum known chosen has
    | _ => cases payload <;> exact hasTree_of_leaf made
  | .bool _, _, _, _, made => hasTree_of_leaf made
  | .unsigned _, _, _, _, made => hasTree_of_leaf made
  | .signed _, _, _, _, made => hasTree_of_leaf made
  | .float _, _, _, _, made => hasTree_of_leaf made
  | .string _, _, _, _, made => hasTree_of_leaf made
  | .bytes _, _, _, _, made => hasTree_of_leaf made
  | .publicKey _, _, _, _, made => hasTree_of_leaf made
termination_by structural value => value

theorem haveTrees_of_treeItems : (items : List Value) → ∀ type path position trees,
    treeItems table items type path position = .ok trees → HaveTrees table items type trees
  | [], _, _, _, _, made => by
    cases made
    exact .nil
  | item :: rest, type, path, position, trees, made => by
    obtain ⟨tree, first, tail⟩ := bind_eq_ok.1 made
    obtain ⟨remaining, restMade, done⟩ := bind_eq_ok.1 tail
    rw [← pure_eq_ok.1 done]
    exact .cons (hasTree_of_toTree item _ _ _ first) (haveTrees_of_treeItems rest _ _ _ _ restMade)
termination_by structural items => items

theorem pairsHaveTrees_of_treeEntries : (entries : List (Value × Value)) →
    ∀ key item path position trees,
      treeEntries table entries key item path position = .ok trees →
        PairsHaveTrees table entries key item trees
  | [], _, _, _, _, _, made => by
    cases made
    exact .nil
  | (first, second) :: rest, key, item, path, position, trees, made => by
    obtain ⟨firstTree, firstMade, secondRest⟩ := bind_eq_ok.1 made
    obtain ⟨secondTree, secondMade, tail⟩ := bind_eq_ok.1 secondRest
    obtain ⟨remaining, restMade, done⟩ := bind_eq_ok.1 tail
    rw [← pure_eq_ok.1 done]
    exact .cons (hasTree_of_toTree first _ _ _ firstMade)
      (hasTree_of_toTree second _ _ _ secondMade)
      (pairsHaveTrees_of_treeEntries rest _ _ _ _ _ restMade)
termination_by structural entries => entries

theorem hasTree_of_get? : (fields : List (String × Value)) → ∀ key value,
    Record.get? fields key = some value → OnlyTrees table value
  | [], _, _, found => by cases found
  | (key', value') :: rest, key, value, found => by
    rw [Record.get?_cons] at found
    split at found
    next =>
      rw [← Option.some.inj found]
      exact hasTree_of_toTree value'
    next => exact hasTree_of_get? rest key value found
termination_by structural fields => fields

theorem hasTree_of_mem : (items : List Value) → ∀ value ∈ items, OnlyTrees table value
  | [] => by simp
  | item :: rest =>
    List.forall_mem_cons.2 ⟨hasTree_of_toTree item, hasTree_of_mem rest⟩
termination_by structural items => items

end

/-! ## From trees to conversions -/

def Converts (table : Table) (fields : Record Value) (field : Field) (entry : String × Tree) :
    Prop :=
  entry.1 = field.name ∧ ∃ value, Record.get? fields field.name = some value ∧
    ∀ path, toTree table value field.type path = .ok entry.2

theorem members_of_converts {fields : Record Value} {declared : List Field} {trees : Record Tree}
    (each : List.Forall₂ (Converts table fields) declared trees) (path : String) :
    Convert.members (treeFields table fields) path declared = .ok trees := by
  refine Convert.members_eq_ok.2 (each.imp fun field entry converts => ?_)
  obtain ⟨named, value, found, made⟩ := converts
  refine ⟨named, toTree table value, ?_, made _⟩
  rw [get?_treeFields, found, Option.map_some]

mutual

theorem toTree_of_hasTree {value : Value} {type : FieldType} {tree : Tree} :
    HasTree table value type tree → ∀ path, toTree table value type path = .ok tree
  | .bool _, _ => rfl
  | .unsigned bound, _ => if_pos bound
  | .signed bound, _ => if_pos bound
  | .single exact, _ => if_pos (by simpa using exact)
  | .double _, _ => rfl
  | .string _, _ => rfl
  | .bytes _, _ => rfl
  | .publicKey _, _ => rfl
  | .vec items, path => map_eq_ok.2 ⟨_, treeItems_of_haveTrees items path 0, rfl⟩
  | .array sized items, path => by
    simp only [toTree, if_pos sized]
    exact map_eq_ok.2 ⟨_, treeItems_of_haveTrees items path 0, rfl⟩
  | .none _, _ => rfl
  | .some inner, path => map_eq_ok.2 ⟨_, toTree_of_hasTree inner path, rfl⟩
  | .map pairs, path => map_eq_ok.2 ⟨_, treeEntries_of_pairsHaveTrees pairs path 0, rfl⟩
  | .struct known complete members, path => by
    refine bind_eq_ok.2 ⟨_, Convert.definition_eq_ok.2 known, ?_⟩
    simp only [if_pos]
    refine treeOfFields_eq_ok.2 ⟨_, by rwa [keys_treeFields], ?_, rfl⟩
    exact members_of_converts (converts_of_membersHaveTrees members) path
  | .enum known chosen carried, path => by
    rw [toTree_enum]
    refine convertEnum_eq_ok.2 ⟨rfl, _, _, _, known, chosen, ?_, rfl⟩
    exact treeOfCarried_of_payloadHasTrees carried _

theorem treeItems_of_haveTrees {items : List Value} {type : FieldType} {trees : List Tree} :
    HaveTrees table items type trees →
      ∀ path position, treeItems table items type path position = .ok trees
  | .nil, _, _ => rfl
  | .cons first rest, path, position =>
    bind_eq_ok.2 ⟨_, toTree_of_hasTree first _,
      bind_eq_ok.2 ⟨_, treeItems_of_haveTrees rest path (position + 1), rfl⟩⟩

theorem treeEntries_of_pairsHaveTrees {entries : List (Value × Value)} {key item : FieldType}
    {pairs : List (Tree × Tree)} :
    PairsHaveTrees table entries key item pairs →
      ∀ path position, treeEntries table entries key item path position = .ok pairs
  | .nil, _, _ => rfl
  | .cons first second rest, path, position =>
    bind_eq_ok.2 ⟨_, toTree_of_hasTree first _, bind_eq_ok.2 ⟨_, toTree_of_hasTree second _,
      bind_eq_ok.2 ⟨_, treeEntries_of_pairsHaveTrees rest path (position + 1), rfl⟩⟩⟩

theorem converts_of_membersHaveTrees {fields : Record Value} {declared : List Field}
    {trees : Record Tree} :
    MembersHaveTrees table fields declared trees →
      List.Forall₂ (Converts table fields) declared trees
  | .nil => .nil
  | .cons found first rest =>
    .cons ⟨rfl, _, found, toTree_of_hasTree first⟩ (converts_of_membersHaveTrees rest)

theorem treeOfCarried_of_payloadHasTrees {payload : Payload Value} {shape : Shape}
    {trees : Record Tree} :
    PayloadHasTrees table payload shape trees →
      ∀ path, treeOfCarried table payload shape path = .ok (.record trees)
  | .empty, _ => rfl
  | @PayloadHasTrees.named _ _ declared _ complete members, path => by
    rw [treeOfCarried, treeOfPayload_named]
    refine ⟨declared, rfl, treeOfFields_eq_ok.2 ⟨_, by rwa [keys_treeFields], ?_, rfl⟩⟩
    exact members_of_converts (converts_of_membersHaveTrees members) path
  | @PayloadHasTrees.tuple _ items types _ sized members, path => by
    have membersMade := members_of_converts (converts_of_membersHaveTrees members) path
    rw [members_tuple, treeMembers_tuple path sized] at membersMade
    obtain ⟨elements, elementsMade, rfl⟩ := map_eq_ok.1 membersMade
    rw [treeOfCarried, treeOfPayload_tuple, length_treeElements]
    exact ⟨types, elements, rfl, sized, elementsMade, rfl⟩

end

/-- The conversion succeeds for the values that have a tree, wherever they stand. -/
theorem toTree_eq_ok {value : Value} {type : FieldType} {path : String} {tree : Tree} :
    toTree table value type path = .ok tree ↔ HasTree table value type tree :=
  ⟨hasTree_of_toTree value type path tree, fun has => toTree_of_hasTree has path⟩

end Value

end WireSchema
