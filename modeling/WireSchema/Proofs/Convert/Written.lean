import WireSchema.Proofs.Convert.Depth
import WireSchema.Proofs.Convert.Floats
import WireSchema.Proofs.Convert.Identical
import WireSchema.Proofs.Convert.ToJson
import WireSchema.Proofs.Json.Text

/-! JSON forms as text. The form of a value without floats is parsed as it is printed, unless it has
too many brackets, and values that are identical have one form. -/

namespace WireSchema

open Outcome

namespace Value

variable {table : Table}

/-! ## Forms that are parsed -/

theorem readable_unsigned {width : Width} {n : Nat} (bound : width.containsNat n = true) :
    (if width.isWide then Json.string (toString n) else .nat n).IsReadable 0 := by
  split
  next => exact Json.readable_string _
  next narrow =>
    have small : 256 ^ width.bytes ≤ 2 ^ (64 : Nat) := by
      cases width with
      | w128 => exact absurd rfl narrow
      | _ => decide
    have upper := (width.containsNat_iff n).1 bound
    exact Json.readable_int (Int.le_trans (by decide) (Int.natCast_nonneg n))
      (Int.ofNat_lt.2 (Nat.lt_of_lt_of_le upper small))

theorem readable_signed {width : Width} {i : Int} (bound : width.containsInt i = true) :
    (if width.isWide then Json.string (toString i) else .int i).IsReadable 0 := by
  split
  next => exact Json.readable_string _
  next narrow =>
    have small : (256 ^ width.bytes / 2 : Nat) ≤ 2 ^ (63 : Nat) := by
      cases width with
      | w128 => exact absurd rfl narrow
      | _ => decide
    obtain ⟨lower, upper⟩ := (width.containsInt_iff i).1 bound
    refine Json.readable_int ?_ ?_
    · simp only [Json.minSigned]
      omega
    · omega

theorem readable_bytes (b : List UInt8) :
    (Json.array (b.map fun byte => .nat byte.toNat)).IsReadable 1 := by
  refine Json.readable_array (List.forall_mem_map.2 fun byte _ => ?_)
  have small := byte.toNat_lt
  refine Json.readable_int (Int.le_trans (by decide) (Int.natCast_nonneg _)) ?_
  omega

theorem readable_variantObject (kind : String) {body : Option Json} {limit : Nat}
    (readable : ∀ json ∈ body, json.IsReadable limit) :
    (variantObject kind body).IsReadable (limit + 1) := by
  have text := (Json.readable_string kind).mono (Nat.zero_le limit)
  cases body with
  | none => exact Json.readable_object (by simp [Record.keys]) (List.forall_mem_singleton.2 text)
  | some json =>
    refine Json.readable_object (by simp [Record.keys])
      (List.forall_mem_cons.2 ⟨text, List.forall_mem_singleton.2 (readable json rfl)⟩)

/- Follows the derivation of the tree, which knows what the type of each part is. -/
mutual

theorem readable_of_hasTree (names : table.HasNames) {value : Value} {type : FieldType}
    {tree : Tree} : HasTree table value type tree → value.contains isFloat = false →
      ∀ {path json}, toJson table value type path = .ok json → json.IsReadable value.depth
  | .bool b, _, _, _, made => by
    cases made
    exact ⟨trivial, rfl, Nat.le_refl 0⟩
  | .unsigned bound, _, _, _, made => by
    cases (if_pos bound).symm.trans made
    exact readable_unsigned bound
  | .signed bound, _, _, _, made => by
    cases (if_pos bound).symm.trans made
    exact readable_signed bound
  | .single _, plain, _, _, _ => by cases plain
  | .double _, plain, _, _, _ => by cases plain
  | .string s, _, _, _, made => by
    cases made
    exact Json.readable_string s
  | .bytes b, _, _, _, made => by
    cases made
    exact readable_bytes b
  | .publicKey key, _, _, _, made => by
    cases made
    exact Json.readable_string key.text
  | .vec items, plain, _, _, made => by
    obtain ⟨jsons, itemsMade, rfl⟩ := map_eq_ok.1 made
    exact Json.readable_array
      (readable_of_haveTrees names items (Bool.or_eq_false_iff.1 plain).2 itemsMade)
  | .array sized items, plain, _, _, made => by
    simp only [toJson, if_pos sized] at made
    obtain ⟨jsons, itemsMade, rfl⟩ := map_eq_ok.1 made
    exact Json.readable_array
      (readable_of_haveTrees names items (Bool.or_eq_false_iff.1 plain).2 itemsMade)
  | .none item, _, _, _, made => by
    cases made
    exact ⟨trivial, rfl, Nat.le_refl 0⟩
  | .some inner, plain, _, _, made =>
    readable_of_hasTree names inner (Bool.or_eq_false_iff.1 plain).2 made
  | .map pairs, plain, _, _, made => by
    obtain ⟨jsons, entriesMade, rfl⟩ := map_eq_ok.1 made
    exact Json.readable_array
      (readable_of_pairsHaveTrees names pairs (Bool.or_eq_false_iff.1 plain).2 entriesMade)
  | .struct known _ members, plain, _, _, made => by
    rw [toJson_struct known] at made
    obtain ⟨jsons, membersMade, rfl⟩ := map_eq_ok.1 made
    have keys := Convert.keys_eq_names (Convert.members_eq_ok.1 membersMade) fun _ _ => And.left
    exact Json.readable_object (keys ▸ (names.of_body? known).distinct)
      (readable_of_membersHaveTrees names members (Bool.or_eq_false_iff.1 plain).2 membersMade)
  | .enum known chosen carried, plain, _, _, made => by
    obtain ⟨-, _, variant, body, known', chosen', bodyMade, rfl⟩ :=
      convertEnum_eq_ok.1 ((toJson_enum ..).symm.trans made)
    cases known.symm.trans known'
    cases chosen.symm.trans chosen'
    rw [depth_enum]
    exact readable_variantObject _ (readable_of_payloadHasTrees names carried plain
      (names.distinct_of_findVariant known chosen) bodyMade)
termination_by structural has => has

theorem readable_of_haveTrees (names : table.HasNames) {items : List Value} {type : FieldType}
    {trees : List Tree} : HaveTrees table items type trees → itemsContain isFloat items = false →
      ∀ {path position jsons}, jsonItems table items type path position = .ok jsons →
        ∀ json ∈ jsons, json.IsReadable (itemsDepth items)
  | .nil, _, _, _, _, made => by
    cases made
    simp
  | .cons first rest, plain, _, _, _, made => by
    obtain ⟨here, below⟩ := Bool.or_eq_false_iff.1 plain
    obtain ⟨json, firstMade, tail⟩ := bind_eq_ok.1 made
    obtain ⟨jsons, restMade, done⟩ := bind_eq_ok.1 tail
    rw [← pure_eq_ok.1 done]
    refine List.forall_mem_cons.2 ⟨?_, fun other member => ?_⟩
    · exact (readable_of_hasTree names first here firstMade).mono (Nat.le_max_left _ _)
    · exact (readable_of_haveTrees names rest below restMade other member).mono
        (Nat.le_max_right _ _)
termination_by structural has => has

theorem readable_of_pairsHaveTrees (names : table.HasNames) {entries : List (Value × Value)}
    {key item : FieldType} {pairs : List (Tree × Tree)} :
    PairsHaveTrees table entries key item pairs → entriesContain isFloat entries = false →
      ∀ {path position jsons}, jsonEntries table entries key item path position = .ok jsons →
        ∀ json ∈ jsons, json.IsReadable (entriesDepth entries)
  | .nil, _, _, _, _, made => by
    cases made
    simp
  | .cons first second rest, plain, _, _, _, made => by
    obtain ⟨both, below⟩ := Bool.or_eq_false_iff.1 plain
    obtain ⟨keyPlain, itemPlain⟩ := Bool.or_eq_false_iff.1 both
    obtain ⟨keyJson, keyMade, tail⟩ := bind_eq_ok.1 made
    obtain ⟨itemJson, itemMade, tail⟩ := bind_eq_ok.1 tail
    obtain ⟨jsons, restMade, done⟩ := bind_eq_ok.1 tail
    rw [← pure_eq_ok.1 done]
    have keyIsReadable := readable_of_hasTree names first keyPlain keyMade
    have itemIsReadable := readable_of_hasTree names second itemPlain itemMade
    have pair : (Json.array [keyJson, itemJson]).IsReadable _ := Json.readable_array
      (List.forall_mem_cons.2 ⟨keyIsReadable.mono (Nat.le_max_left _ _),
        List.forall_mem_singleton.2 (itemIsReadable.mono (Nat.le_max_right _ _))⟩)
    refine List.forall_mem_cons.2 ⟨pair.mono (Nat.le_max_left _ _), fun other member => ?_⟩
    exact (readable_of_pairsHaveTrees names rest below restMade other member).mono
      (Nat.le_max_right _ _)
termination_by structural has => has

theorem readable_of_membersHaveTrees (names : table.HasNames) {fields : Record Value}
    {declared : List Field} {trees : Record Tree} :
    MembersHaveTrees table fields declared trees → fieldsContain isFloat fields = false →
      ∀ {path jsons}, Convert.members (jsonFields table fields) path declared = .ok jsons →
        ∀ entry ∈ jsons, entry.2.IsReadable (fieldsDepth fields)
  | .nil, _, _, _, made => by
    cases made
    simp
  | .cons found first rest, plain, _, _, made => by
    rw [Convert.members, get?_jsonFields, found, Option.map_some] at made
    obtain ⟨json, firstMade, tail⟩ := bind_eq_ok.1 made
    obtain ⟨jsons, restMade, done⟩ := bind_eq_ok.1 tail
    rw [← pure_eq_ok.1 done]
    have inside := Record.mem_of_get? found
    have here := fieldsContain_eq_false.1 plain _ inside
    refine List.forall_mem_cons.2 ⟨?_, readable_of_membersHaveTrees names rest plain restMade⟩
    exact (readable_of_hasTree names first here firstMade).mono
      (fieldsDepth_le.1 (Nat.le_refl _) _ inside)
termination_by structural has => has

theorem readable_of_payloadHasTrees (names : table.HasNames) {name kind : String} {tag : UInt8}
    {payload : Payload Value} {shape : Shape} {trees : Record Tree} :
    PayloadHasTrees table payload shape trees →
      (Value.enum name kind tag payload).contains isFloat = false →
      (shape.members.map Field.name).Nodup →
      ∀ {path body}, jsonOfCarried table payload shape path = .ok body →
        ∀ json ∈ body, json.IsReadable (payloadDepth payload)
  | .empty, _, _, _, _, made => by
    cases made
    simp
  | .named _ members, plain, unique, _, _, made => by
    rw [jsonOfCarried_named] at made
    obtain ⟨jsons, membersMade, rfl⟩ := map_eq_ok.1 made
    have keys := Convert.keys_eq_names (Convert.members_eq_ok.1 membersMade) fun _ _ => And.left
    rintro json ⟨⟩
    exact Json.readable_object (keys ▸ unique)
      (readable_of_membersHaveTrees names members (Bool.or_eq_false_iff.1 plain).2 membersMade)
  | .tuple sized members, plain, _, _, _, made => by
    rw [jsonOfCarried_tuple sized] at made
    obtain ⟨jsons, membersMade, rfl⟩ := map_eq_ok.1 made
    have each := readable_of_membersHaveTrees names members
      ((fieldsContain_keyedFrom _ 0 _).trans (Bool.or_eq_false_iff.1 plain).2) membersMade
    rw [fieldsDepth_keyedFrom] at each
    rintro json ⟨⟩
    exact Json.readable_array (List.forall_mem_map.2 each)
termination_by structural has => has

end

/-! ## Forms of identical values -/

mutual

/-- At one type, identical values have the same form. -/
theorem toJson_of_identical {value value' : Value} {type : FieldType} {tree tree' : Tree} :
    HasTree table value type tree → HasTree table value' type tree' →
      value.identical value' = true → ∀ path,
        toJson table value type path = toJson table value' type path
  | .bool _, .bool _, alike, _ => by rw [eq_of_beq alike]
  | .unsigned _, .unsigned _, alike, _ => by rw [eq_of_beq alike]
  | .signed _, .signed _, alike, _ => by rw [eq_of_beq alike]
  | .single _, .single _, alike, _ => by rw [eq_of_beq alike]
  | .double _, .double _, alike, _ => by rw [eq_of_beq alike]
  | .string _, .string _, alike, _ => by rw [eq_of_beq alike]
  | .bytes _, .bytes _, alike, _ => by rw [eq_of_beq alike]
  | .publicKey _, .publicKey _, alike, _ => by rw [eq_of_beq alike]
  | .vec items, .vec items', alike, path =>
    congrArg (Except.map Json.array) (jsonItems_of_identical items items' alike path 0)
  | .array sized items, .array sized' items', alike, path => by
    simp only [toJson, if_pos sized, if_pos sized']
    exact congrArg (Except.map Json.array) (jsonItems_of_identical items items' alike path 0)
  | .none _, .none _, _, _ => rfl
  | .none _, .some _, alike, _ => by cases alike
  | .some _, .none _, alike, _ => by cases alike
  | .some inner, .some inner', alike, path => toJson_of_identical inner inner' alike path
  | .map pairs, .map pairs', alike, path =>
    congrArg (Except.map Json.array) (jsonEntries_of_identical pairs pairs' alike path 0)
  | .struct known _ members, .struct known' _ members', alike, path => by
    cases known.symm.trans known'
    rw [toJson_struct known, toJson_struct known,
      jsonMembers_of_identical members members' (Bool.and_eq_true_iff.1 alike).2]
  | .struct _ _ _, .enum _ _ _, alike, _ => by cases alike
  | .enum _ _ _, .struct _ _ _, alike, _ => absurd alike not_identical_enum_struct
  | .enum known chosen carried, .enum known' chosen' carried', alike, path => by
    cases known.symm.trans known'
    cases kind_of_identical alike
    obtain ⟨-, rfl⟩ := Prod.mk.inj (Except.ok.inj (chosen.symm.trans chosen'))
    rw [toJson_enum, toJson_enum, convertEnum_of_chosen known chosen,
      convertEnum_of_chosen known chosen', jsonOfCarried_of_identical carried carried' alike]
termination_by structural has => has

theorem jsonItems_of_identical {items items' : List Value} {type : FieldType}
    {trees trees' : List Tree} :
    HaveTrees table items type trees → HaveTrees table items' type trees' →
      sameItems (· == ·) items items' = true → ∀ path position,
        jsonItems table items type path position = jsonItems table items' type path position
  | .nil, .nil, _, _, _ => rfl
  | .nil, .cons _ _, alike, _, _ => by cases alike
  | .cons _ _, .nil, alike, _, _ => by cases alike
  | .cons first rest, .cons first' rest', alike, path, position => by
    obtain ⟨here, below⟩ := Bool.and_eq_true_iff.1 alike
    rw [jsonItems, jsonItems, toJson_of_identical first first' here,
      jsonItems_of_identical rest rest' below]
termination_by structural has => has

theorem jsonEntries_of_identical {entries entries' : List (Value × Value)} {key item : FieldType}
    {pairs pairs' : List (Tree × Tree)} :
    PairsHaveTrees table entries key item pairs → PairsHaveTrees table entries' key item pairs' →
      sameEntries (· == ·) entries entries' = true → ∀ path position,
        jsonEntries table entries key item path position =
          jsonEntries table entries' key item path position
  | .nil, .nil, _, _, _ => rfl
  | .nil, .cons _ _ _, alike, _, _ => by cases alike
  | .cons _ _ _, .nil, alike, _, _ => by cases alike
  | .cons first second rest, .cons first' second' rest', alike, path, position => by
    obtain ⟨both, below⟩ := Bool.and_eq_true_iff.1 alike
    obtain ⟨keys, values⟩ := Bool.and_eq_true_iff.1 both
    simp only [jsonEntries, toJson_of_identical first first' keys,
      toJson_of_identical second second' values, jsonEntries_of_identical rest rest' below]
termination_by structural has => has

theorem jsonMembers_of_identical {fields fields' : Record Value} {declared : List Field}
    {trees trees' : Record Tree} :
    MembersHaveTrees table fields declared trees → MembersHaveTrees table fields' declared trees' →
      sameFields (· == ·) fields fields' = true → ∀ path,
        Convert.members (jsonFields table fields) path declared =
          Convert.members (jsonFields table fields') path declared
  | .nil, .nil, _, _ => rfl
  | .cons found first rest, .cons found' first' rest', alike, path => by
    obtain ⟨other, here, same⟩ := get?_of_sameFields alike found
    cases here.symm.trans found'
    simp only [Convert.members, get?_jsonFields, found, found', Option.map_some,
      toJson_of_identical first first' same, jsonMembers_of_identical rest rest' alike]
termination_by structural has => has

theorem jsonOfCarried_of_identical {payload payload' : Payload Value} {shape : Shape}
    {trees trees' : Record Tree} {name name' kind kind' : String} {tag tag' : UInt8} :
    PayloadHasTrees table payload shape trees → PayloadHasTrees table payload' shape trees' →
      (enum name kind tag payload).identical (enum name' kind' tag' payload') = true → ∀ path,
        jsonOfCarried table payload shape path = jsonOfCarried table payload' shape path
  | .empty, .empty, _, _ => rfl
  | .named _ members, .named _ members', alike, path => by
    rw [jsonOfCarried_named, jsonOfCarried_named,
      jsonMembers_of_identical members members' (Bool.and_eq_true_iff.1 alike).2]
  | .tuple sized members, .tuple sized' members', alike, path => by
    rw [jsonOfCarried_tuple sized, jsonOfCarried_tuple sized', jsonMembers_of_identical members
      members' (sameFields_keyedFrom (Bool.and_eq_true_iff.1 alike).2)]
termination_by structural has => has

end

end Value

end WireSchema
