import WireSchema.Json.Draft
import WireSchema.Proofs.Outcome

/-! Drafts of values. Reading a draft succeeds exactly if it is without a fault and opens no more
brackets than there is room for, and it then gives the value that the draft was made of. -/

namespace WireSchema.Json

open Outcome

mutual

def depth : Json → Nat
  | .array items => itemsDepth items + 1
  | .object members => membersDepth members + 1
  | _ => 0
termination_by structural json => json

def itemsDepth : List Json → Nat
  | [] => 0
  | item :: rest => max (depth item) (itemsDepth rest)
termination_by structural items => items

def membersDepth : List (String × Json) → Nat
  | [] => 0
  | (_, value) :: rest => max (depth value) (membersDepth rest)
termination_by structural members => members

end

theorem itemsDepth_le {items : List Json} {limit : Nat} :
    itemsDepth items ≤ limit ↔ ∀ item ∈ items, item.depth ≤ limit := by
  induction items with
  | nil => simp [itemsDepth]
  | cons item rest ih => rw [itemsDepth, Nat.max_le, ih, List.forall_mem_cons]

theorem membersDepth_le {members : List (String × Json)} {limit : Nat} :
    membersDepth members ≤ limit ↔ ∀ entry ∈ members, entry.2.depth ≤ limit := by
  induction members with
  | nil => simp [membersDepth]
  | cons entry rest ih => rw [membersDepth, Nat.max_le, ih, List.forall_mem_cons]

namespace Draft

def Holds : Room → Nat → Prop
  | none, _ => True
  | some left, depth => depth ≤ left

theorem Holds.mono {room : Room} {depth depth' : Nat} (holds : Holds room depth')
    (less : depth ≤ depth') : Holds room depth := by
  cases room with
  | none => trivial
  | some left => exact Nat.le_trans less holds

theorem holds_zero (room : Room) : Holds room 0 := by
  cases room with
  | none => trivial
  | some left => exact Nat.zero_le left

theorem holds_max {room : Room} {depth depth' : Nat} :
    Holds room (max depth depth') ↔ Holds room depth ∧ Holds room depth' := by
  cases room with
  | none => exact ⟨fun _ => ⟨trivial, trivial⟩, fun _ => trivial⟩
  | some left => exact Nat.max_le

theorem enter_ok {room inner : Room} {path : Path} {depth : Nat}
    (entered : enter room path = .ok inner) : Holds inner depth ↔ Holds room (depth + 1) := by
  match room, entered with
  | none, rfl => exact Iff.rfl
  | some (left + 1), rfl => exact Nat.succ_le_succ_iff.symm

theorem exists_enter {room : Room} {depth : Nat} (holds : Holds room (depth + 1)) (path : Path) :
    ∃ inner, enter room path = .ok inner := by
  match room, holds with
  | none, _ => exact ⟨none, rfl⟩
  | some (left + 1), _ => exact ⟨some left, rfl⟩

/-! ## Reading values -/

mutual

theorem read_ofJson : ∀ (json : Json) {room : Room}, Holds room json.depth → ∀ path,
    (ofJson json).read room path = .ok json
  | .null, _, _, _ => rfl
  | .bool _, _, _, _ => rfl
  | .number _, _, _, _ => rfl
  | .string _, _, _, _ => rfl
  | .array items, room, holds, path => by
    obtain ⟨inner, entered⟩ := exists_enter holds path
    rw [ofJson, read]
    exact bind_eq_ok.2 ⟨inner, entered, bind_eq_ok.2
      ⟨items, readItems_ofItems items ((enter_ok entered).2 holds) path 0, rfl⟩⟩
  | .object members, room, holds, path => by
    obtain ⟨inner, entered⟩ := exists_enter holds path
    rw [ofJson, read]
    exact bind_eq_ok.2 ⟨inner, entered, bind_eq_ok.2
      ⟨members, readMembers_ofMembers members ((enter_ok entered).2 holds) path, rfl⟩⟩

theorem readItems_ofItems : ∀ (items : List Json) {room : Room}, Holds room (itemsDepth items) →
    ∀ path position, readItems (ofItems items) room path position = .ok items
  | [], _, _, _, _ => rfl
  | item :: rest, _, holds, path, position => by
    obtain ⟨here, below⟩ := holds_max.1 holds
    rw [ofItems, readItems]
    exact bind_eq_ok.2 ⟨item, read_ofJson item here _,
      bind_eq_ok.2 ⟨rest, readItems_ofItems rest below path (position + 1), rfl⟩⟩

theorem readMembers_ofMembers : ∀ (members : List (String × Json)) {room : Room},
    Holds room (membersDepth members) → ∀ path,
      readMembers (ofMembers members) room path = .ok members
  | [], _, _, _ => rfl
  | (key, value) :: rest, _, holds, path => by
    obtain ⟨here, below⟩ := holds_max.1 holds
    rw [ofMembers, readMembers]
    exact bind_eq_ok.2 ⟨key, rfl, bind_eq_ok.2 ⟨value, read_ofJson value here _,
      bind_eq_ok.2 ⟨rest, readMembers_ofMembers rest below path, rfl⟩⟩⟩

end

/-! ## Values that were read -/

mutual

theorem ofJson_of_read : ∀ (draft : Draft) {room : Room} {path : Path} {json : Json},
    draft.read room path = .ok json → draft = ofJson json ∧ Holds room json.depth
  | .null, room, _, _, made => by
    cases made
    exact ⟨rfl, holds_zero room⟩
  | .bool _, room, _, _, made => by
    cases made
    exact ⟨rfl, holds_zero room⟩
  | .number (.ok _), room, _, _, made => by
    cases made
    exact ⟨rfl, holds_zero room⟩
  | .number (.error _), _, _, _, made => by cases made
  | .string (.ok _), room, _, _, made => by
    cases made
    exact ⟨rfl, holds_zero room⟩
  | .string (.error _), _, _, _, made => by cases made
  | .array drafts stop, room, path, json, made => by
    rw [read] at made
    obtain ⟨inner, entered, rest⟩ := bind_eq_ok.1 made
    obtain ⟨items, itemsMade, done⟩ := bind_eq_ok.1 rest
    obtain ⟨same, holds⟩ := ofItems_of_readItems drafts itemsMade
    cases stop with
    | some fault => cases done
    | none =>
      cases done
      exact ⟨by rw [same, ofJson], (enter_ok entered).1 holds⟩
  | .object drafts stop, room, path, json, made => by
    rw [read] at made
    obtain ⟨inner, entered, rest⟩ := bind_eq_ok.1 made
    obtain ⟨members, membersMade, done⟩ := bind_eq_ok.1 rest
    obtain ⟨same, holds⟩ := ofMembers_of_readMembers drafts membersMade
    cases stop with
    | some fault => cases done
    | none =>
      cases done
      exact ⟨by rw [same, ofJson], (enter_ok entered).1 holds⟩
  | .missing _, _, _, _, made => by cases made
  | .noColon _, _, _, _, made => by cases made

theorem ofItems_of_readItems : ∀ (drafts : List Draft) {room : Room} {path : Path}
    {position : Nat} {items : List Json}, readItems drafts room path position = .ok items →
      drafts = ofItems items ∧ Holds room (itemsDepth items)
  | [], room, _, _, _, made => by
    cases made
    exact ⟨rfl, holds_zero room⟩
  | draft :: rest, _, _, _, _, made => by
    obtain ⟨item, first, tail⟩ := bind_eq_ok.1 made
    obtain ⟨items, restMade, done⟩ := bind_eq_ok.1 tail
    obtain ⟨rfl, here⟩ := ofJson_of_read draft first
    obtain ⟨rfl, below⟩ := ofItems_of_readItems rest restMade
    rw [← pure_eq_ok.1 done]
    exact ⟨rfl, holds_max.2 ⟨here, below⟩⟩

theorem ofMembers_of_readMembers : ∀ (drafts : List (Except SyntaxError String × Draft))
    {room : Room} {path : Path} {members : List (String × Json)},
    readMembers drafts room path = .ok members →
      drafts = ofMembers members ∧ Holds room (membersDepth members)
  | [], room, _, _, made => by
    cases made
    exact ⟨rfl, holds_zero room⟩
  | (.error _, _) :: _, _, _, _, made => by cases made
  | (.ok key, draft) :: rest, _, _, _, made => by
    obtain ⟨_, ⟨⟩, tail⟩ := bind_eq_ok.1 made
    obtain ⟨value, first, tail⟩ := bind_eq_ok.1 tail
    obtain ⟨members, restMade, done⟩ := bind_eq_ok.1 tail
    obtain ⟨rfl, here⟩ := ofJson_of_read draft first
    obtain ⟨rfl, below⟩ := ofMembers_of_readMembers rest restMade
    rw [← pure_eq_ok.1 done]
    exact ⟨rfl, holds_max.2 ⟨here, below⟩⟩

end

theorem read_eq_ok {draft : Draft} {room : Room} {path : Path} {json : Json} :
    draft.read room path = .ok json ↔ draft = ofJson json ∧ Holds room json.depth := by
  constructor
  · exact ofJson_of_read draft
  · rintro ⟨rfl, holds⟩
    exact read_ofJson json holds path

theorem ofJson_inj {json json' : Json} (same : ofJson json = ofJson json') : json = json' := by
  have read := @read_ofJson json none trivial []
  rw [same, @read_ofJson json' none trivial] at read
  exact (Except.ok.inj read).symm

/-! ## Skipping -/

theorem skipItems_eq_ok {items : List Draft} :
    skipItems items = .ok () ↔ ∀ item ∈ items, item.skip = .ok () := by
  induction items with
  | nil => simp [skipItems]
  | cons item rest ih => rw [skipItems, then_eq_ok, ih, List.forall_mem_cons]

theorem skipMembers_eq_ok {members : List (Except SyntaxError String × Draft)} :
    skipMembers members = .ok () ↔ ∀ entry ∈ members, entry.2.skip = .ok () := by
  induction members with
  | nil => simp [skipMembers]
  | cons entry rest ih => rw [skipMembers, then_eq_ok, ih, List.forall_mem_cons]

theorem skip_array {items : List Draft} {stop : Option Fault} :
    (array items stop).skip = .ok () ↔ (∀ item ∈ items, item.skip = .ok ()) ∧ stop = none := by
  rw [← skipItems_eq_ok]
  cases stop with
  | none => exact then_eq_ok.trans (and_congr_right fun _ => iff_of_true rfl rfl)
  | some fault => exact then_eq_ok.trans (and_congr_right fun _ => iff_of_false nofun nofun)

theorem skip_object {members : List (Except SyntaxError String × Draft)} {stop : Option Fault} :
    (object members stop).skip = .ok () ↔
      (∀ entry ∈ members, entry.2.skip = .ok ()) ∧ stop = none := by
  rw [← skipMembers_eq_ok]
  cases stop with
  | none => exact then_eq_ok.trans (and_congr_right fun _ => iff_of_true rfl rfl)
  | some fault => exact then_eq_ok.trans (and_congr_right fun _ => iff_of_false nofun nofun)

mutual

theorem skip_ofJson : ∀ json : Json, (ofJson json).skip = .ok ()
  | .null | .bool _ | .number _ | .string _ => rfl
  | .array items => then_eq_ok.2 ⟨skipItems_ofItems items, rfl⟩
  | .object members => then_eq_ok.2 ⟨skipMembers_ofMembers members, rfl⟩

theorem skipItems_ofItems : ∀ items : List Json, skipItems (ofItems items) = .ok ()
  | [] => rfl
  | item :: rest => then_eq_ok.2 ⟨skip_ofJson item, skipItems_ofItems rest⟩

theorem skipMembers_ofMembers :
    ∀ members : List (String × Json), skipMembers (ofMembers members) = .ok ()
  | [] => rfl
  | (_, value) :: rest => then_eq_ok.2 ⟨skip_ofJson value, skipMembers_ofMembers rest⟩

end

theorem ofJson_ne_noColon (json : Json) (error : SyntaxError) : ofJson json ≠ .noColon error := by
  cases json <;> exact nofun

end Draft

end WireSchema.Json
