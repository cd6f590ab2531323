import WireSchema.Proofs.Json.Draft
import WireSchema.Proofs.Record
import WireSchema.Schema.Form

/-! Forms of objects. Each slot fills its own part of the state, and so the state tells which
members were met, whatever their order and whatever stands among them. -/

namespace WireSchema

open Json Outcome

namespace Load

theorem anything_eq_ok {room : Draft.Room} {path : Path} {draft : Draft} {json : Json} :
    anything room path draft = .ok json ↔ draft = .ofJson json ∧ Draft.Holds room json.depth := by
  rw [← @Draft.read_eq_ok draft room path json, anything]
  cases draft.read room path <;> simp [failSyntax]

theorem anything_ofJson (path : Path) (json : Json) :
    anything none path (.ofJson json) = .ok json :=
  anything_eq_ok.2 ⟨rfl, trivial⟩

variable {read : Path → Draft → Load α} {values : List α} {items : List Json}

theorem items_ofItems
    (each : List.Forall₂ (fun value json => ∀ path, read path (.ofJson json) = .ok value)
      values items) (path : Path) (position : Nat) :
    Load.items read path position (Draft.ofItems items) = .ok values := by
  induction each generalizing position with
  | nil => rfl
  | cons first _ ih => exact bind_eq_ok.2 ⟨_, first _, bind_eq_ok.2 ⟨_, ih (position + 1), rfl⟩⟩

theorem list_ofJson
    (each : List.Forall₂ (fun value json => ∀ path, read path (.ofJson json) = .ok value)
      values items) (path : Path) :
    list read path (.ofJson (.array items)) = .ok values :=
  bind_eq_ok.2 ⟨values, items_ofItems each path 0, rfl⟩

theorem failType_ne_ok (path : Path) (draft : Draft) (expected : String) (value : α) :
    failType path draft expected ≠ .ok value := by
  unfold failType
  split <;> exact nofun

/-- Only what can be skipped is read. -/
def NeedsStructure (read : Path → Draft → Load α) : Prop :=
  ∀ path draft value, read path draft = .ok value → draft.skip = .ok ()

theorem needsStructure_string : NeedsStructure string := by
  intro path draft value made
  unfold string at made
  split at made
  next => rfl
  next => exact absurd made (failType_ne_ok _ _ _ _)

theorem needsStructure_optionalString : NeedsStructure optionalString := by
  intro path draft value made
  unfold optionalString at made
  split at made
  next => rfl
  next =>
    obtain ⟨text, textMade, -⟩ := map_eq_ok.1 made
    exact needsStructure_string path draft text textMade

theorem needsStructure_anything (room : Draft.Room) : NeedsStructure (anything room) := by
  intro path draft json made
  rw [(anything_eq_ok.1 made).1, Draft.skip_ofJson]

theorem skip_of_items {read : Path → Draft → Load α} (needs : NeedsStructure read) {path : Path}
    {position : Nat} {drafts : List Draft} {values : List α}
    (made : Load.items read path position drafts = .ok values) :
    ∀ draft ∈ drafts, draft.skip = .ok () := by
  induction drafts generalizing position values with
  | nil => simp
  | cons draft rest ih =>
    obtain ⟨value, first, tail⟩ := bind_eq_ok.1 made
    obtain ⟨others, restMade, -⟩ := bind_eq_ok.1 tail
    exact List.forall_mem_cons.2 ⟨needs _ _ _ first, ih restMade⟩

theorem needsStructure_list {read : Path → Draft → Load α} (needs : NeedsStructure read) :
    NeedsStructure (list read) := by
  intro path draft values made
  cases draft with
  | array drafts stop =>
    obtain ⟨found, itemsMade, done⟩ := bind_eq_ok.1 made
    refine Draft.skip_array.2 ⟨skip_of_items needs itemsMade, ?_⟩
    cases stop with
    | none => rfl
    | some fault => cases done
  | _ =>
    simp only [list] at made
    exact absurd made (failType_ne_ok _ _ _ _)

end Load

namespace Form

variable {form : Form σ} {path : Path} {key : String} {state state' : σ}

theorem readMember_of_slot {slot : Slot σ} {json : Json}
    (found : form.slots.find? (fun slot => slot.name = key) = some slot)
    (vacant : slot.filled state = false)
    (taken : slot.read (path ++ [.key key]) (.ofJson json) state = .ok state') :
    form.readMember path key (.ofJson json) state = .ok state' := by
  rw [readMember.eq_def, found]
  simp only [vacant]
  cases json <;> exact taken

theorem readMember_of_none (json : Json)
    (unknown : form.slots.find? (fun slot => slot.name = key) = none) :
    form.readMember path key (.ofJson json) state = .ok state := by
  have skipped := Draft.skip_ofJson json
  rw [readMember.eq_def, unknown]
  cases json <;> simp only [Draft.ofJson] at skipped ⊢ <;> rw [skipped]

variable {members : Record Json}

/-- A state for the members that were met so far. A member with a slot leads from one to the next
when it is read, and the other members change nothing. -/
structure Tracks (form : Form σ) (members : Record Json) (after : List String → σ) : Prop where
  taken : ∀ slot ∈ form.slots, ∀ json, Record.get? members slot.name = some json →
    ∀ met, slot.name ∉ met → slot.filled (after met) = false ∧
      ∀ path, slot.read path (.ofJson json) (after met) = .ok (after (slot.name :: met))
  passed : ∀ key, (∀ slot ∈ form.slots, slot.name ≠ key) → ∀ met, after (key :: met) = after met

namespace Tracks

variable {after : List String → σ} {met : List String}

theorem readMember {json : Json} (tracks : form.Tracks members after)
    (found : Record.get? members key = some json) (fresh : key ∉ met) :
    form.readMember path key (.ofJson json) (after met) = .ok (after (key :: met)) := by
  cases declared : form.slots.find? fun slot => slot.name = key with
  | none =>
    have apart : ∀ slot ∈ form.slots, slot.name ≠ key := by
      simpa using List.find?_eq_none.1 declared
    rw [readMember_of_none json declared, tracks.passed key apart]
  | some slot =>
    have isKey : slot.name = key := by simpa using List.find?_some declared
    subst isKey
    have member := List.mem_of_find?_eq_some declared
    obtain ⟨vacant, read⟩ := tracks.taken slot member json found met fresh
    exact readMember_of_slot declared vacant (read _)

/-- The members are read one after another; `rest` are those that are still to be met. -/
theorem readMembers (tracks : form.Tracks members after) {rest : Record Json}
    (distinct : (Record.keys rest).Nodup) (fresh : ∀ key ∈ Record.keys rest, key ∉ met)
    (among : ∀ entry ∈ rest, Record.get? members entry.1 = some entry.2) :
    form.readMembers path (Draft.ofMembers rest) (after met) =
      .ok (after ((Record.keys rest).reverse ++ met)) := by
  induction rest generalizing met with
  | nil => rfl
  | cons entry rest ih =>
    obtain ⟨key, json⟩ := entry
    obtain ⟨apart, others⟩ := List.nodup_cons.1 distinct
    obtain ⟨here, below⟩ := List.forall_mem_cons.1 fresh
    obtain ⟨found, amongRest⟩ := List.forall_mem_cons.1 among
    have freshRest : ∀ other ∈ Record.keys rest, other ∉ key :: met := by
      intro other member
      rintro (_ | ⟨_, inside⟩)
      · exact apart member
      · exact below other member inside
    rw [Record.keys, List.map_cons, List.reverse_cons, List.append_assoc]
    exact bind_eq_ok.2 ⟨_, tracks.readMember found here, ih others freshRest amongRest⟩

theorem read_object (tracks : form.Tracks members after) (distinct : (Record.keys members).Nodup)
    (complete : form.missing? (after (Record.keys members).reverse) = none) (origin : Origin) :
    form.read origin path (.ofJson (.object members)) (after []) =
      .ok (after (Record.keys members).reverse) := by
  have read := @readMembers _ form path members after [] tracks members distinct
    (fun _ _ => List.not_mem_nil) fun _ member => Record.get?_of_mem distinct member
  rw [List.append_nil] at read
  refine bind_eq_ok.2 ⟨_, read, ?_⟩
  simp only [complete]
  rfl

end Tracks

/-! ## Structure of what was read -/

def NeedsStructure (form : Form σ) : Prop :=
  ∀ slot ∈ form.slots, ∀ state, Load.NeedsStructure fun path draft => slot.read path draft state

theorem skip_of_readList {slots : List (Slot σ)}
    (needs : ∀ slot ∈ slots, ∀ state, Load.NeedsStructure fun path draft =>
      slot.read path draft state)
    {origin : Origin} {length position : Nat} {stop : Option Fault} {items : List Draft}
    (made : form.readList origin path length stop position slots items state = .ok state') :
    (∀ item ∈ items, item.skip = .ok ()) ∧ stop = none := by
  induction slots generalizing items position state with
  | nil =>
    cases items with
    | nil =>
      cases stop with
      | none => exact ⟨by simp, rfl⟩
      | some fault => cases made
    | cons item rest => cases origin <;> cases made
  | cons slot slots ih =>
    obtain ⟨here, below⟩ := List.forall_mem_cons.1 needs
    cases items with
    | nil =>
      cases stop with
      | none => exact ⟨by simp, rfl⟩
      | some fault => cases made
    | cons item rest =>
      obtain ⟨after, taken, tail⟩ := bind_eq_ok.1 made
      obtain ⟨others, complete⟩ := ih below tail
      exact ⟨List.forall_mem_cons.2 ⟨here state _ _ _ taken, others⟩, complete⟩

theorem skip_of_readMember (needs : form.NeedsStructure) {draft : Draft}
    (made : form.readMember path key draft state = .ok state') : draft.skip = .ok () := by
  unfold readMember at made
  split at made
  next slot found =>
    split at made
    next => cases made
    next =>
      split at made
      next => cases made
      next => exact needs slot (List.mem_of_find?_eq_some found) state _ _ _ made
  next =>
    split at made
    next => cases made
    next =>
      split at made
      next skipped => exact skipped
      next => cases made

theorem skip_of_readMembers (needs : form.NeedsStructure)
    {members : List (Except SyntaxError String × Draft)}
    (made : form.readMembers path members state = .ok state') :
    ∀ entry ∈ members, entry.2.skip = .ok () := by
  induction members generalizing state with
  | nil => simp
  | cons entry rest ih =>
    obtain ⟨key, draft⟩ := entry
    cases key with
    | error error => cases made
    | ok key =>
      obtain ⟨after, first, tail⟩ := bind_eq_ok.1 made
      exact List.forall_mem_cons.2 ⟨skip_of_readMember needs first, ih tail⟩

theorem needsStructure_read (needs : form.NeedsStructure) (origin : Origin) (start : σ) :
    Load.NeedsStructure fun path draft => form.read origin path draft start := by
  intro path draft state made
  cases draft with
  | array items stop => exact Draft.skip_array.2 (skip_of_readList needs made)
  | object members stop =>
    obtain ⟨after, membersMade, tail⟩ := bind_eq_ok.1 made
    refine Draft.skip_object.2 ⟨skip_of_readMembers needs membersMade, ?_⟩
    cases stop with
    | none => rfl
    | some fault => cases tail
  | _ =>
    simp only [read] at made
    exact absurd made (Load.failType_ne_ok _ _ _ _)

end Form

end WireSchema
