import WireSchema.Proofs.Json.Draft
import WireSchema.Proofs.Record

/-! Merging of repeated keys. It changes nothing about values that repeat no key, and it never adds
a bracket. -/

namespace WireSchema.Json

mutual

def hasDistinctKeys : Json → Bool
  | .array items => itemsHaveDistinctKeys items
  | .object members => decide (Record.keys members).Nodup && membersHaveDistinctKeys members
  | _ => true
termination_by structural json => json

def itemsHaveDistinctKeys : List Json → Bool
  | [] => true
  | item :: rest => hasDistinctKeys item && itemsHaveDistinctKeys rest
termination_by structural items => items

def membersHaveDistinctKeys : List (String × Json) → Bool
  | [] => true
  | (_, value) :: rest => hasDistinctKeys value && membersHaveDistinctKeys rest
termination_by structural members => members

end

mutual

theorem merge_eq_self : ∀ json : Json, json.hasDistinctKeys = true → json.merge = json
  | .null, _ => rfl
  | .bool _, _ => rfl
  | .number _, _ => rfl
  | .string _, _ => rfl
  | .array items, distinct => congrArg Json.array (mergeItems_eq_self items distinct)
  | .object members, distinct => by
    obtain ⟨keys, below⟩ := Bool.and_eq_true_iff.1 distinct
    rw [merge, mergeMembers_eq_self members below, Record.ofList_eq_self (of_decide_eq_true keys)]

theorem mergeItems_eq_self : ∀ items : List Json, itemsHaveDistinctKeys items = true →
    mergeItems items = items
  | [], _ => rfl
  | item :: rest, distinct => by
    obtain ⟨here, below⟩ := Bool.and_eq_true_iff.1 distinct
    rw [mergeItems, merge_eq_self item here, mergeItems_eq_self rest below]

theorem mergeMembers_eq_self : ∀ members : List (String × Json),
    membersHaveDistinctKeys members = true → mergeMembers members = members
  | [], _ => rfl
  | (_, value) :: rest, distinct => by
    obtain ⟨here, below⟩ := Bool.and_eq_true_iff.1 distinct
    rw [mergeMembers, merge_eq_self value here, mergeMembers_eq_self rest below]

end

theorem mergeItems_eq_map (items : List Json) : mergeItems items = items.map merge :=
  eq_map_of_cons rfl (fun _ _ => rfl) items

theorem mergeMembers_eq_map (members : List (String × Json)) :
    mergeMembers members = members.map fun entry => (entry.1, entry.2.merge) :=
  eq_map_of_cons rfl (fun _ _ => rfl) members

theorem keys_mergeMembers (members : List (String × Json)) :
    Record.keys (mergeMembers members) = Record.keys members := by
  rw [mergeMembers_eq_map, Record.keys_map]

/-- Members of interest that stand once each stay where they are among the others. -/
theorem filter_merged (wanted : String → Bool) {members : List (String × Json)}
    (distinct : (Record.keys (members.filter fun entry => wanted entry.1)).Nodup) :
    (Record.ofList (mergeMembers members)).filter (fun entry => wanted entry.1) =
      mergeMembers (members.filter fun entry => wanted entry.1) := by
  rw [Record.filter_ofList, mergeMembers_eq_map, List.filter_map, mergeMembers_eq_map]
  refine Record.ofList_eq_self ?_
  rw [← mergeMembers_eq_map, keys_mergeMembers]
  exact distinct

/-! ## Brackets -/

def parts : Json → List Json
  | .array items => items
  | .object members => members.map Prod.snd
  | _ => []

theorem depth_lt_of_mem_parts {json part : Json} (member : part ∈ json.parts) :
    part.depth < json.depth := by
  cases json with
  | array items => exact Nat.lt_succ_of_le (itemsDepth_le.1 (Nat.le_refl _) part member)
  | object members =>
    obtain ⟨entry, inside, rfl⟩ := List.mem_map.1 member
    exact Nat.lt_succ_of_le (membersDepth_le.1 (Nat.le_refl _) entry inside)
  | _ => cases member

mutual

theorem depth_merge_le : ∀ json : Json, json.merge.depth ≤ json.depth
  | .null => Nat.le_refl _
  | .bool _ => Nat.le_refl _
  | .number _ => Nat.le_refl _
  | .string _ => Nat.le_refl _
  | .array items =>
    Nat.succ_le_succ (itemsDepth_le.2 fun _ member => depth_le_of_mem_mergeItems items member)
  | .object members => Nat.succ_le_succ (membersDepth_le.2 fun _ member =>
      depth_le_of_mem_mergeMembers members (Record.mem_of_mem_ofList member))

theorem depth_le_of_mem_mergeItems : ∀ (items : List Json) {item : Json},
    item ∈ mergeItems items → item.depth ≤ itemsDepth items
  | [], _, member => by cases member
  | first :: rest, _, member => by
    obtain rfl | below := List.mem_cons.1 member
    · exact Nat.le_trans (depth_merge_le first) (Nat.le_max_left _ _)
    · exact Nat.le_trans (depth_le_of_mem_mergeItems rest below) (Nat.le_max_right _ _)

theorem depth_le_of_mem_mergeMembers : ∀ (members : List (String × Json)) {entry : String × Json},
    entry ∈ mergeMembers members → entry.2.depth ≤ membersDepth members
  | [], _, member => by cases member
  | (_, value) :: rest, _, member => by
    obtain rfl | below := List.mem_cons.1 member
    · exact Nat.le_trans (depth_merge_le value) (Nat.le_max_left _ _)
    · exact Nat.le_trans (depth_le_of_mem_mergeMembers rest below) (Nat.le_max_right _ _)

end

end WireSchema.Json
