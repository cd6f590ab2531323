import WireSchema.Proofs.Convert.ToJson

/-! The order of keys in what is written. The record of a value may have its entries in any order,
but those of its tree and of its JSON form stand as the fields were declared. -/

namespace WireSchema

open Outcome

/-- The records in a tree have the declared keys, in the order of declaration. Trees of primitive
types have no records. -/
inductive Tree.IsOrdered (table : Table) : Tree → FieldType → Prop
  | primitive (tree : Tree) (p : Primitive) : IsOrdered table tree (.primitive p)
  | vec {items : List Tree} {item : FieldType} (inside : ∀ tree ∈ items, IsOrdered table tree item) :
      IsOrdered table (.list items) (.vec item)
  | array {items : List Tree} {item : FieldType} (length : Nat)
      (inside : ∀ tree ∈ items, IsOrdered table tree item) :
      IsOrdered table (.list items) (.array item length)
  | none (item : FieldType) : IsOrdered table (.option none) (.option item)
  | some {tree : Tree} {item : FieldType} (inner : IsOrdered table tree item) :
      IsOrdered table (.option (some tree)) (.option item)
  | map {entries : List (Tree × Tree)} {key item : FieldType}
      (keys : ∀ entry ∈ entries, IsOrdered table entry.1 key)
      (items : ∀ entry ∈ entries, IsOrdered table entry.2 item) :
      IsOrdered table (.map entries) (.hashMap key item)
  | struct {name : String} {declared : List Field} {fields : Record Tree}
      (known : table.body? name = some (.struct declared))
      (keys : Record.keys fields = declared.map Field.name)
      (inside : ∀ pair ∈ declared.zip fields, IsOrdered table pair.2.2 pair.1.type) :
      IsOrdered table (.record fields) (.defined name)
  | enum {name : String} {variants : List Variant} {variant : Variant} {fields : Record Tree}
      (known : table.body? name = some (.enum variants)) (member : variant ∈ variants)
      (keys : Record.keys fields = variant.shape.members.map Field.name)
      (inside : ∀ pair ∈ variant.shape.members.zip fields, IsOrdered table pair.2.2 pair.1.type) :
      IsOrdered table (.variant variant.name (.record fields)) (.defined name)

/-- The objects in a JSON value have the declared keys, in the order of declaration, and those for
variants have the kind first. JSON values of primitive types have no objects. -/
inductive Json.IsOrdered (table : Table) : Json → FieldType → Prop
  | primitive (json : Json) (p : Primitive) : IsOrdered table json (.primitive p)
  | vec {items : List Json} {item : FieldType} (inside : ∀ json ∈ items, IsOrdered table json item) :
      IsOrdered table (.array items) (.vec item)
  | array {items : List Json} {item : FieldType} (length : Nat)
      (inside : ∀ json ∈ items, IsOrdered table json item) :
      IsOrdered table (.array items) (.array item length)
  | null (item : FieldType) : IsOrdered table .null (.option item)
  | some {json : Json} {item : FieldType} (inner : IsOrdered table json item) :
      IsOrdered table json (.option item)
  | map {entries : List (Json × Json)} {key item : FieldType}
      (keys : ∀ entry ∈ entries, IsOrdered table entry.1 key)
      (items : ∀ entry ∈ entries, IsOrdered table entry.2 item) :
      IsOrdered table (.array (entries.map fun entry => .array [entry.1, entry.2]))
        (.hashMap key item)
  | struct {name : String} {declared : List Field} {members : Record Json}
      (known : table.body? name = some (.struct declared))
      (keys : Record.keys members = declared.map Field.name)
      (inside : ∀ pair ∈ declared.zip members, IsOrdered table pair.2.2 pair.1.type) :
      IsOrdered table (.object members) (.defined name)
  | empty {name : String} {variants : List Variant} {variant : Variant}
      (known : table.body? name = some (.enum variants)) (member : variant ∈ variants)
      (shape : variant.shape = .empty) :
      IsOrdered table (.object [("kind", .string variant.name)]) (.defined name)
  | named {name : String} {variants : List Variant} {variant : Variant} {declared : List Field}
      {members : Record Json} (known : table.body? name = some (.enum variants))
      (member : variant ∈ variants) (shape : variant.shape = .named declared)
      (keys : Record.keys members = declared.map Field.name)
      (inside : ∀ pair ∈ declared.zip members, IsOrdered table pair.2.2 pair.1.type) :
      IsOrdered table (.object [("kind", .string variant.name), ("value", .object members)])
        (.defined name)
  | tuple {name : String} {variants : List Variant} {variant : Variant} {types : List FieldType}
      {items : List Json} (known : table.body? name = some (.enum variants))
      (member : variant ∈ variants) (shape : variant.shape = .tuple types)
      (sized : items.length = types.length)
      (inside : ∀ pair ∈ types.zip items, IsOrdered table pair.2 pair.1) :
      IsOrdered table (.object [("kind", .string variant.name), ("value", .array items)])
        (.defined name)

namespace Value

variable {table : Table}

/-! ## Trees -/

mutual

theorem isOrdered_of_hasTree {value : Value} {type : FieldType} {tree : Tree} :
    HasTree table value type tree → tree.IsOrdered table type
  | .bool _ | .unsigned _ | .signed _ | .single _ | .double _ | .string _ | .bytes _
  | .publicKey _ => .primitive _ _
  | .vec items => .vec (isOrdered_of_haveTrees items)
  | .array _ items => .array _ (isOrdered_of_haveTrees items)
  | .none item => .none item
  | .some inner => .some (isOrdered_of_hasTree inner)
  | .map pairs =>
    .map (fun entry member => (isOrdered_of_pairsHaveTrees pairs entry member).1)
      fun entry member => (isOrdered_of_pairsHaveTrees pairs entry member).2
  | .struct known _ members =>
    .struct known (keys_of_membersHaveTrees members) (isOrdered_of_membersHaveTrees members)
  | .enum known chosen carried => by
    obtain ⟨declared, rfl⟩ := Convert.mem_of_findVariant chosen
    obtain ⟨keys, inside⟩ := isOrdered_of_payloadHasTrees carried
    exact .enum known declared keys inside
termination_by structural has => has

theorem isOrdered_of_haveTrees {items : List Value} {type : FieldType} {trees : List Tree} :
    HaveTrees table items type trees → ∀ tree ∈ trees, tree.IsOrdered table type
  | .nil => by simp
  | .cons first rest =>
    List.forall_mem_cons.2 ⟨isOrdered_of_hasTree first, isOrdered_of_haveTrees rest⟩
termination_by structural has => has

theorem isOrdered_of_pairsHaveTrees {entries : List (Value × Value)} {key item : FieldType}
    {pairs : List (Tree × Tree)} : PairsHaveTrees table entries key item pairs →
      ∀ pair ∈ pairs, pair.1.IsOrdered table key ∧ pair.2.IsOrdered table item
  | .nil => by simp
  | .cons first second rest =>
    List.forall_mem_cons.2 ⟨⟨isOrdered_of_hasTree first, isOrdered_of_hasTree second⟩,
      isOrdered_of_pairsHaveTrees rest⟩
termination_by structural has => has

theorem isOrdered_of_membersHaveTrees {fields : Record Value} {declared : List Field}
    {trees : Record Tree} : MembersHaveTrees table fields declared trees →
      ∀ pair ∈ declared.zip trees, pair.2.2.IsOrdered table pair.1.type
  | .nil => by simp
  | .cons _ first rest =>
    List.forall_mem_cons.2 ⟨isOrdered_of_hasTree first, isOrdered_of_membersHaveTrees rest⟩
termination_by structural has => has

theorem isOrdered_of_payloadHasTrees {payload : Payload Value} {shape : Shape}
    {trees : Record Tree} : PayloadHasTrees table payload shape trees →
      Record.keys trees = shape.members.map Field.name ∧
        ∀ pair ∈ shape.members.zip trees, pair.2.2.IsOrdered table pair.1.type
  | .empty => ⟨rfl, by simp [Shape.members]⟩
  | .named _ members => ⟨keys_of_membersHaveTrees members, isOrdered_of_membersHaveTrees members⟩
  | .tuple _ members => ⟨keys_of_membersHaveTrees members, isOrdered_of_membersHaveTrees members⟩
termination_by structural has => has

end

/-! ## JSON -/

theorem types_of_members_tuple (types : List FieldType) :
    (Shape.tuple types).members.map Field.type = types := by
  rw [members_tuple, elementsFrom, List.map_map]
  exact map_snd_keyedFrom 0 types

/- Follows the derivation of the tree, which knows what the type of each part is. -/
mutual

theorem isOrdered_of_toJson {value : Value} {type : FieldType} {tree : Tree} :
    HasTree table value type tree →
      ∀ {path json}, toJson table value type path = .ok json → json.IsOrdered table type
  | .bool _, _, _, _ | .unsigned _, _, _, _ | .signed _, _, _, _ | .single _, _, _, _
  | .double _, _, _, _ | .string _, _, _, _ | .bytes _, _, _, _ | .publicKey _, _, _, _ =>
    .primitive _ _
  | .vec items, _, _, made => by
    obtain ⟨jsons, itemsMade, rfl⟩ := map_eq_ok.1 made
    exact .vec (isOrdered_of_jsonItems items itemsMade)
  | .array sized items, _, _, made => by
    simp only [toJson, if_pos sized] at made
    obtain ⟨jsons, itemsMade, rfl⟩ := map_eq_ok.1 made
    exact .array _ (isOrdered_of_jsonItems items itemsMade)
  | .none item, _, _, made => by
    cases made
    exact .null item
  | .some inner, _, _, made => .some (isOrdered_of_toJson inner made)
  | .map pairs, _, _, made => by
    obtain ⟨jsons, entriesMade, rfl⟩ := map_eq_ok.1 made
    obtain ⟨entries, rfl, each⟩ := isOrdered_of_jsonEntries pairs entriesMade
    exact .map (fun entry member => (each entry member).1) fun entry member => (each entry member).2
  | .struct known _ members, _, _, made => by
    rw [toJson_struct known] at made
    obtain ⟨jsons, membersMade, rfl⟩ := map_eq_ok.1 made
    have keys := Convert.keys_eq_names (Convert.members_eq_ok.1 membersMade) fun _ _ => And.left
    exact .struct known keys (isOrdered_of_jsonMembers members membersMade)
  | .enum known chosen carried, _, _, made => by
    obtain ⟨-, _, variant, body, known', chosen', bodyMade, rfl⟩ :=
      convertEnum_eq_ok.1 ((toJson_enum ..).symm.trans made)
    cases known.symm.trans known'
    cases chosen.symm.trans chosen'
    obtain ⟨declared, rfl⟩ := Convert.mem_of_findVariant chosen
    exact isOrdered_of_jsonOfCarried carried known declared rfl bodyMade
termination_by structural has => has

theorem isOrdered_of_jsonItems {items : List Value} {type : FieldType} {trees : List Tree} :
    HaveTrees table items type trees → ∀ {path position jsons},
      jsonItems table items type path position = .ok jsons →
        ∀ json ∈ jsons, json.IsOrdered table type
  | .nil, _, _, _, made => by
    cases made
    simp
  | .cons first rest, _, _, _, made => by
    obtain ⟨json, firstMade, tail⟩ := bind_eq_ok.1 made
    obtain ⟨jsons, restMade, done⟩ := bind_eq_ok.1 tail
    rw [← pure_eq_ok.1 done]
    exact List.forall_mem_cons.2
      ⟨isOrdered_of_toJson first firstMade, isOrdered_of_jsonItems rest restMade⟩
termination_by structural has => has

theorem isOrdered_of_jsonEntries {entries : List (Value × Value)} {key item : FieldType}
    {pairs : List (Tree × Tree)} : PairsHaveTrees table entries key item pairs →
      ∀ {path position jsons}, jsonEntries table entries key item path position = .ok jsons →
        ∃ written : List (Json × Json),
          (written.map fun entry => Json.array [entry.1, entry.2]) = jsons ∧
          ∀ entry ∈ written, entry.1.IsOrdered table key ∧ entry.2.IsOrdered table item
  | .nil, _, _, _, made => by
    cases made
    exact ⟨[], rfl, by simp⟩
  | .cons first second rest, _, _, _, made => by
    obtain ⟨keyJson, keyMade, tail⟩ := bind_eq_ok.1 made
    obtain ⟨itemJson, itemMade, tail⟩ := bind_eq_ok.1 tail
    obtain ⟨jsons, restMade, done⟩ := bind_eq_ok.1 tail
    obtain ⟨written, rfl, each⟩ := isOrdered_of_jsonEntries rest restMade
    refine ⟨(keyJson, itemJson) :: written, pure_eq_ok.1 done, List.forall_mem_cons.2 ⟨?_, each⟩⟩
    exact ⟨isOrdered_of_toJson first keyMade, isOrdered_of_toJson second itemMade⟩
termination_by structural has => has

theorem isOrdered_of_jsonMembers {fields : Record Value} {declared : List Field}
    {trees : Record Tree} : MembersHaveTrees table fields declared trees →
      ∀ {path jsons}, Convert.members (jsonFields table fields) path declared = .ok jsons →
        ∀ pair ∈ declared.zip jsons, pair.2.2.IsOrdered table pair.1.type
  | .nil, _, _, _ => by simp
  | .cons found first rest, _, _, made => by
    rw [Convert.members, get?_jsonFields, found, Option.map_some] at made
    obtain ⟨json, firstMade, tail⟩ := bind_eq_ok.1 made
    obtain ⟨jsons, restMade, done⟩ := bind_eq_ok.1 tail
    rw [← pure_eq_ok.1 done]
    exact List.forall_mem_cons.2
      ⟨isOrdered_of_toJson first firstMade, isOrdered_of_jsonMembers rest restMade⟩
termination_by structural has => has

theorem isOrdered_of_jsonOfCarried {payload : Payload Value} {shape : Shape}
    {trees : Record Tree} : PayloadHasTrees table payload shape trees →
      ∀ {name : String} {variants : List Variant} {variant : Variant},
        table.body? name = some (.enum variants) → variant ∈ variants → variant.shape = shape →
        ∀ {path body}, jsonOfCarried table payload shape path = .ok body →
          (variantObject variant.name body).IsOrdered table (.defined name)
  | .empty, _, _, _, known, member, shaped, _, _, made => by
    cases made
    exact .empty known member shaped
  | .named _ members, _, _, _, known, member, shaped, _, _, made => by
    rw [jsonOfCarried_named] at made
    obtain ⟨jsons, membersMade, rfl⟩ := map_eq_ok.1 made
    have keys := Convert.keys_eq_names (Convert.members_eq_ok.1 membersMade) fun _ _ => And.left
    exact .named known member shaped keys (isOrdered_of_jsonMembers members membersMade)
  | @PayloadHasTrees.tuple _ _ types _ sized members, _, _, _, known, member, shaped, _, _, made => by
    rw [jsonOfCarried_tuple sized] at made
    obtain ⟨jsons, membersMade, rfl⟩ := map_eq_ok.1 made
    have counted := (Convert.members_eq_ok.1 membersMade).length_eq
    have each := isOrdered_of_jsonMembers members membersMade
    refine .tuple known member shaped ?_ ?_
    · rw [List.length_map, ← counted, ← types_of_members_tuple types, List.length_map,
        types_of_members_tuple]
    · rw [← types_of_members_tuple types, List.zip_map]
      exact List.forall_mem_map.2 each
termination_by structural has => has

end

end Value

end WireSchema
