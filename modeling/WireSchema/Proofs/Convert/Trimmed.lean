import WireSchema.Proofs.Bundle
import WireSchema.Proofs.Convert.Belongs

/-! Trees of values of trees. What a conversion passes over in a tree is not in the value, and so
the value is written as the tree without it. -/

namespace WireSchema

open Outcome

namespace Tree

def trimMembers (trimmers : Record (FieldType → Tree)) (declared : List Field) : Record Tree :=
  declared.filterMap fun field =>
    (Record.get? trimmers field.name).map fun trim => (field.name, trim field.type)

mutual

/-- What a type has a use for: the declared entries of records, and floats in the precision of
their position. -/
def trimmed (table : Table) : Tree → FieldType → Tree
  | .float x, type =>
    match type with
    | .primitive .single => .float x.toSingle
    | _ => .float x
  | .list items, type =>
    match type with
    | .vec item | .array item _ => .list (trimItems table items item)
    | _ => .list items
  | .option none, _ => .option none
  | .option (some tree), type =>
    match type with
    | .option item => .option (some (trimmed table tree item))
    | _ => .option (some tree)
  | .map entries, type =>
    match type with
    | .hashMap key item => .map (trimEntries table entries key item)
    | _ => .map entries
  | .record fields, type =>
    match type with
    | .defined name =>
      match table.body? name with
      | some (.struct declared) => .record (trimMembers (trimmers table fields) declared)
      | some (.enum variants) =>
        match fields with
        | [(kind, payload)] =>
          match variants.find? (·.name = kind) with
          | some variant => .variant kind (trimPayload table payload variant.shape)
          | none => .record fields
        | fields => .record fields
      | none => .record fields
    | _ => .record fields
  | .bool b, _ => .bool b
  | .unsigned n, _ => .unsigned n
  | .signed i, _ => .signed i
  | .string s, _ => .string s
  | .bytes b, _ => .bytes b
termination_by structural tree => tree

def trimItems (table : Table) : List Tree → FieldType → List Tree
  | [], _ => []
  | tree :: rest, type => trimmed table tree type :: trimItems table rest type
termination_by structural items => items

def trimEntries (table : Table) :
    List (Tree × Tree) → FieldType → FieldType → List (Tree × Tree)
  | [], _, _ => []
  | (key, item) :: rest, keyType, itemType =>
    (trimmed table key keyType, trimmed table item itemType) ::
      trimEntries table rest keyType itemType
termination_by structural entries => entries

def trimmers (table : Table) : List (String × Tree) → Record (FieldType → Tree)
  | [] => []
  | (key, tree) :: rest => (key, trimmed table tree) :: trimmers table rest
termination_by structural fields => fields

def trimPayload (table : Table) : Tree → Shape → Tree
  | .record fields, shape => .record (trimMembers (trimmers table fields) shape.members)
  | tree, _ => tree
termination_by structural tree => tree

end

variable {table : Table}

theorem trimmers_eq_map (fields : Record Tree) :
    trimmers table fields = fields.map fun entry => (entry.1, trimmed table entry.2) :=
  eq_map_of_cons rfl (fun _ _ => rfl) fields

theorem get?_trimmers (fields : Record Tree) (key : String) :
    Record.get? (trimmers table fields) key = (Record.get? fields key).map (trimmed table) := by
  rw [trimmers_eq_map, Record.get?_map]

theorem trimmed_struct {name : String} {declared : List Field}
    (known : table.body? name = some (.struct declared)) (fields : Record Tree) :
    (Tree.record fields).trimmed table (.defined name) =
      .record (trimMembers (trimmers table fields) declared) := by
  -- The trimming is stuck until it is known how many entries there are.
  match fields with
  | [] | [_] | _ :: _ :: _ => simp only [trimmed, known]

theorem trimmed_enum {name kind : String} {variants : List Variant} {variant : Variant}
    (known : table.body? name = some (.enum variants))
    (chosen : variants.find? (fun variant => variant.name = kind) = some variant)
    (payload : Tree) :
    (Tree.variant kind payload).trimmed table (.defined name) =
      .variant kind (payload.trimPayload table variant.shape) := by
  simp only [Tree.variant, trimmed, known, chosen]

end Tree

namespace Value

variable {table : Table}

/-- What a tree is converted to has the tree again, but for what was passed over. -/
def OnlyTrims (table : Table) (tree : Tree) : Prop :=
  ∀ type path value, ofTree table tree type path = .ok value →
    HasTree table value type (tree.trimmed table type)

def OnlyTrimsPayload (table : Table) (tree : Tree) : Prop :=
  ∀ shape path payload, (shape.members.map Field.name).Nodup →
    ofPayload table tree shape path = .ok payload →
    ∃ trees, tree.trimPayload table shape = .record trees ∧
      PayloadHasTrees table payload shape trees

theorem hasTree_of_valueOfTree {p : Primitive} {tree : Tree} {value : Value}
    (made : p.valueOfTree tree = .ok value) :
    HasTree table value (.primitive p) (tree.trimmed table (.primitive p)) := by
  cases p with
  | bool =>
    obtain ⟨b, read, rfl⟩ := map_eq_ok.1 made
    cases tree with
    | bool b' =>
      cases read
      exact .bool b
    | _ => cases read
  | unsigned width =>
    obtain ⟨n, read, rfl⟩ := map_eq_ok.1 made
    cases tree with
    | unsigned m =>
      simp only [Tree.toUnsigned] at read
      split at read
      next bound =>
        cases read
        exact .unsigned bound
      next => cases read
    | _ => cases read
  | signed width =>
    obtain ⟨i, read, rfl⟩ := map_eq_ok.1 made
    cases tree with
    | signed j =>
      simp only [Tree.toSigned] at read
      split at read
      next bound =>
        cases read
        exact .signed bound
      next => cases read
    | _ => cases read
  | single =>
    obtain ⟨x, read, rfl⟩ := map_eq_ok.1 made
    obtain ⟨y, double, rfl⟩ := map_eq_ok.1 read
    cases tree with
    | float y' =>
      cases double
      exact .single (.inr y.toSingle_toSingle)
    | _ => cases double
  | double =>
    obtain ⟨x, read, rfl⟩ := map_eq_ok.1 made
    cases tree with
    | float y =>
      cases read
      exact .double x
    | _ => cases read
  | string =>
    obtain ⟨s, read, rfl⟩ := map_eq_ok.1 made
    cases tree with
    | string s' =>
      cases read
      exact .string s
    | _ => cases read
  | bytes =>
    obtain ⟨b, read, rfl⟩ := map_eq_ok.1 made
    cases tree with
    | bytes b' =>
      cases read
      exact .bytes b
    | _ => cases read
  | publicKey =>
    obtain ⟨key, read, rfl⟩ := map_eq_ok.1 made
    cases tree with
    | bytes b =>
      simp only [Tree.toPublicKey, PublicKey.ofBytes] at read
      split at read
      next found =>
        split at found
        next size =>
          cases found
          cases read
          exact .publicKey ⟨b, size⟩
        next => cases found
      next => cases read
    | _ => cases read

theorem hasTree_of_ofLeaf {tree : Tree} {type : FieldType} {path : String} {value : Value}
    (made : ofLeaf table tree type path = .ok value) :
    HasTree table value type (tree.trimmed table type) := by
  have expected_ne : ∀ what : String,
      Convert.within path (tree.expected what : Convert Value) ≠ .ok value := by
    rintro what ⟨⟩
  cases type with
  | primitive p => exact hasTree_of_valueOfTree (mapError_eq_ok.1 made)
  | vec item => exact absurd made (expected_ne _)
  | array item length => exact absurd made (expected_ne _)
  | option item => exact absurd made (expected_ne _)
  | hashMap key item => exact absurd made (expected_ne _)
  | defined name =>
    obtain ⟨body, -, rest⟩ := bind_eq_ok.1 made
    cases body with
    | struct declared => exact absurd rest (expected_ne _)
    | enum variants => cases (then_eq_ok.1 rest).2

/-- Members are found under their names, and so what stands beside them does not matter. -/
theorem membersHaveTrees_of_made {trees : Record Tree} {path : String} {declared : List Field}
    {entries : Record Value} (sound : ∀ entry ∈ trees, OnlyTrims table entry.2)
    (unique : (declared.map Field.name).Nodup)
    (made : Convert.members (ofFields table trees) path declared = .ok entries) :
    Record.keys entries = declared.map Field.name ∧
      MembersHaveTrees table entries declared
        (Tree.trimMembers (Tree.trimmers table trees) declared) := by
  have each := Convert.members_eq_ok.1 made
  have keys := Convert.keys_eq_names each fun _ _ => And.left
  refine ⟨keys, ?_⟩
  suffices ∀ record : Record Value, (∀ entry ∈ entries, Record.get? record entry.1 = some entry.2) →
      MembersHaveTrees table record declared
        (Tree.trimMembers (Tree.trimmers table trees) declared) by
    exact this entries fun _ member => Record.get?_of_mem (keys ▸ unique) member
  intro record agrees
  clear unique made keys
  induction each with
  | nil => exact .nil
  | @cons field entry declared entries first _ ih =>
    obtain ⟨named, convert, found, converted⟩ := first
    obtain ⟨here, below⟩ := List.forall_mem_cons.1 agrees
    rw [get?_ofFields, Option.map_eq_some_iff] at found
    obtain ⟨tree, present, rfl⟩ := found
    have has := sound _ (Record.mem_of_get? present) _ _ _ converted
    rw [Tree.trimMembers, List.filterMap_cons_some (by rw [Tree.get?_trimmers, present]; rfl)]
    exact .cons (named ▸ here) has (ih below)

theorem hasTree_of_record (names : table.HasNames) {fields : Record Tree} {type : FieldType}
    {path : String} {value : Value}
    (sound : ∀ entry ∈ fields, OnlyTrims table entry.2 ∧ OnlyTrimsPayload table entry.2)
    (made : ofTree table (.record fields) type path = .ok value) :
    HasTree table value type ((Tree.record fields).trimmed table type) := by
  cases type with
  | defined name =>
    -- The conversion is stuck until the entries are known.
    obtain ⟨body, known⟩ : ∃ body, table.body? name = some body := by
      match fields with
      | [] | [_] | _ :: _ :: _ =>
        obtain ⟨body, found, -⟩ := bind_eq_ok.1 made
        exact ⟨body, Convert.definition_eq_ok.1 found⟩
    cases body with
    | struct declared =>
      rw [ofTree_struct known] at made
      obtain ⟨entries, membersMade, rfl⟩ := map_eq_ok.1 made
      obtain ⟨keys, has⟩ := membersHaveTrees_of_made (fun entry member => (sound entry member).1)
        (names.of_body? known).distinct membersMade
      rw [Tree.trimmed_struct known]
      exact .struct known (fun key member => keys ▸ member) has
    | enum variants =>
      have defined : Convert.definition table name path = .ok (.enum variants) :=
        Convert.definition_eq_ok.2 known
      match fields with
      | [] | _ :: _ :: _ =>
        simp only [ofTree, defined] at made
        exact hasTree_of_ofLeaf made
      | [(kind, payload)] =>
        cases chosen : Convert.findVariant name variants kind with
        | error error =>
          simp only [ofTree, defined, chosen, bind, Except.bind] at made
          cases made
        | ok found =>
          obtain ⟨position, variant⟩ := found
          obtain ⟨few, -⟩ := names.of_body? known
          have declared := (Convert.findVariant_eq_ok.1 chosen).2
          have unique := names.distinct_of_findVariant known chosen
          rw [← Tree.variant, ofTree_enum known chosen] at made
          obtain ⟨result, payloadMade, rfl⟩ := map_eq_ok.1 made
          obtain ⟨trees, trimmed, has⟩ :=
            (sound _ List.mem_cons_self).2 _ _ _ unique payloadMade
          rw [← Tree.variant, Tree.trimmed_enum known declared, trimmed]
          rw [← toNat_tagOf few chosen] at chosen
          exact .enum known chosen has
  | _ => exact hasTree_of_ofLeaf made

/- Follows the recursion of the conversion. What is known of the entries of a record does for the
members of a struct and for the payload of a variant. -/
mutual

theorem hasTree_of_ofTree (names : table.HasNames) : (tree : Tree) → OnlyTrims table tree
  | .list items, type, path, value, made => by
    cases type with
    | vec item =>
      obtain ⟨values, itemsMade, rfl⟩ := map_eq_ok.1 made
      exact .vec (haveTrees_of_ofItems names items itemsMade).2
    | array item length =>
      simp only [ofTree] at made
      split at made
      next sized =>
        obtain ⟨values, itemsMade, rfl⟩ := map_eq_ok.1 made
        obtain ⟨counted, has⟩ := haveTrees_of_ofItems names items itemsMade
        exact .array (counted.trans sized) has
      next => cases made
    | _ => exact hasTree_of_ofLeaf made
  | .option none, type, path, value, made => by
    cases type with
    | option item =>
      cases made
      exact .none item
    | _ => exact hasTree_of_ofLeaf made
  | .option (some tree), type, path, value, made => by
    cases type with
    | option item =>
      obtain ⟨inner, innerMade, rfl⟩ := map_eq_ok.1 made
      exact .some (hasTree_of_ofTree names tree _ _ _ innerMade)
    | _ => exact hasTree_of_ofLeaf made
  | .map entries, type, path, value, made => by
    cases type with
    | hashMap key item =>
      obtain ⟨pairs, pairsMade, rfl⟩ := map_eq_ok.1 made
      exact .map (pairsHaveTrees_of_ofEntries names entries pairsMade)
    | _ => exact hasTree_of_ofLeaf made
  | .record fields, _, _, _, made =>
    hasTree_of_record names (trims_of_fields names fields) made
  | .bool _, _, _, _, made => hasTree_of_ofLeaf made
  | .unsigned _, _, _, _, made => hasTree_of_ofLeaf made
  | .signed _, _, _, _, made => hasTree_of_ofLeaf made
  | .float _, _, _, _, made => hasTree_of_ofLeaf made
  | .string _, _, _, _, made => hasTree_of_ofLeaf made
  | .bytes _, _, _, _, made => hasTree_of_ofLeaf made
termination_by structural tree => tree

theorem haveTrees_of_ofItems (names : table.HasNames) : (items : List Tree) →
    ∀ {type path position values}, ofItems table items type path position = .ok values →
      values.length = items.length ∧
        HaveTrees table values type (Tree.trimItems table items type)
  | [], _, _, _, _, made => by
    cases made
    exact ⟨rfl, .nil⟩
  | tree :: rest, _, _, _, _, made => by
    obtain ⟨value, first, tail⟩ := bind_eq_ok.1 made
    obtain ⟨others, restMade, done⟩ := bind_eq_ok.1 tail
    obtain ⟨counted, has⟩ := haveTrees_of_ofItems names rest restMade
    rw [← pure_eq_ok.1 done]
    exact ⟨congrArg Nat.succ counted, .cons (hasTree_of_ofTree names tree _ _ _ first) has⟩
termination_by structural items => items

theorem pairsHaveTrees_of_ofEntries (names : table.HasNames) : (entries : List (Tree × Tree)) →
    ∀ {key item path position pairs}, ofEntries table entries key item path position = .ok pairs →
      PairsHaveTrees table pairs key item (Tree.trimEntries table entries key item)
  | [], _, _, _, _, _, made => by
    cases made
    exact .nil
  | (keyTree, itemTree) :: rest, _, _, _, _, _, made => by
    obtain ⟨first, keyMade, tail⟩ := bind_eq_ok.1 made
    obtain ⟨second, itemMade, tail⟩ := bind_eq_ok.1 tail
    obtain ⟨others, restMade, done⟩ := bind_eq_ok.1 tail
    rw [← pure_eq_ok.1 done]
    exact .cons (hasTree_of_ofTree names keyTree _ _ _ keyMade)
      (hasTree_of_ofTree names itemTree _ _ _ itemMade)
      (pairsHaveTrees_of_ofEntries names rest restMade)
termination_by structural entries => entries

theorem trims_of_fields (names : table.HasNames) : (fields : List (String × Tree)) →
    ∀ entry ∈ fields, OnlyTrims table entry.2 ∧ OnlyTrimsPayload table entry.2
  | [] => by simp
  | (_, tree) :: rest =>
    List.forall_mem_cons.2 ⟨⟨hasTree_of_ofTree names tree, payloadHasTrees_of_ofPayload names tree⟩,
      trims_of_fields names rest⟩
termination_by structural fields => fields

theorem payloadHasTrees_of_ofPayload (names : table.HasNames) :
    (tree : Tree) → OnlyTrimsPayload table tree
  | .record fields, shape, path, payload, unique, made => by
    rw [ofPayload_record] at made
    obtain ⟨entries, membersMade, rfl⟩ := map_eq_ok.1 made
    have sound := fun entry member => (trims_of_fields names fields entry member).1
    obtain ⟨keys, has⟩ := membersHaveTrees_of_made sound unique membersMade
    exact ⟨_, rfl, payloadHasTrees_carry keys has⟩
  | .bool _, _, _, _, _, made => by cases made
  | .unsigned _, _, _, _, _, made => by cases made
  | .signed _, _, _, _, _, made => by cases made
  | .float _, _, _, _, _, made => by cases made
  | .string _, _, _, _, _, made => by cases made
  | .bytes _, _, _, _, _, made => by cases made
  | .list _, _, _, _, _, made => by cases made
  | .option _, _, _, _, _, made => by cases made
  | .map _, _, _, _, _, made => by cases made
termination_by structural tree => tree

end

/-- What a tree is converted to belongs to the type. -/
theorem belongs_of_ofTree (names : table.HasNames) {tree : Tree} {type : FieldType} {path : String}
    {value : Value} (made : ofTree table tree type path = .ok value) : Belongs table value type :=
  ⟨_, hasTree_of_ofTree names tree _ _ _ made⟩

end Value

namespace Table

/-- Values and their trees determine one another. Records of a value are ordered maps, and so their
keys are distinct. -/
theorem values_of_trees_inverse {types : List TypeDef} {table : Table}
    (accepted : ofTypes types = .ok table) (type : FieldType) :
    (∀ value path tree, value.hasDistinctKeys = true → value.toTree table type path = .ok tree →
      ∀ path', ∃ value', Value.ofTree table tree type path' = .ok value' ∧
        value'.same value = true) ∧
    ∀ tree path value, Value.ofTree table tree type path = .ok value →
      ∀ path', value.toTree table type path' = .ok (tree.trimmed table type) := by
  obtain ⟨rfl, names⟩ := ofTypes_eq_ok accepted
  constructor
  · intro value path tree distinct made path'
    exact Value.returns_of_hasTree names (Value.toTree_eq_ok.1 made) distinct 0 path'
  · intro tree path value made path'
    exact Value.toTree_eq_ok.2 (Value.hasTree_of_ofTree names tree _ _ _ made)

/-- A node with its members the other way round, an entry that is not declared, and a number that
single precision rounds. -/
def looseNode : Tree :=
  .record [("next", .option none), ("note", .bool true),
    ("mark", .variant "Weighed" (.record [("_0", .float ⟨0x3fb999999999999a⟩)]))]

theorem values_of_trees_inverse_chain :
    let tree := Tree.record
      [("mark", .variant "Weighed" (.record [("_0", .float ⟨0x3fb99999a0000000⟩)])),
        ("next", .option none)]
    ∃ value value', Value.ofTree ⟨Catalog.chain.types⟩ looseNode (.defined "Node") "" = .ok value ∧
      value.toTree ⟨Catalog.chain.types⟩ (.defined "Node") "" = .ok tree ∧
      Value.ofTree ⟨Catalog.chain.types⟩ tree (.defined "Node") "" = .ok value' ∧
      value'.same value = true := by
  obtain ⟨returns, trims⟩ :=
    @values_of_trees_inverse Catalog.chain.types ⟨Catalog.chain.types⟩ rfl (.defined "Node")
  obtain ⟨value, read⟩ :
      ∃ value, Value.ofTree ⟨Catalog.chain.types⟩ looseNode (.defined "Node") "" = .ok value :=
    ⟨_, rfl⟩
  have written := trims looseNode "" value read ""
  have distinct : value.hasDistinctKeys = true := by
    cases read
    rfl
  obtain ⟨value', again, same⟩ := returns value "" _ distinct written ""
  exact ⟨value, value', read, written, again, same⟩

end Table

end WireSchema
