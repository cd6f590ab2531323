import WireSchema.Proofs.Json.Merge
import WireSchema.Proofs.Schema.Form

/-! Forms of documents whose repeated keys are merged. A form reads each of its members once, so a
document that it accepts repeats none of them, and merging moves nothing but members that the form
passes over. -/

namespace WireSchema

open Json Outcome

namespace Load

/-- What `read` makes of a document, `read'` makes of it once its repeated keys are merged. -/
def Merges (read read' : Path → Draft → Load α) (json : Json) : Prop :=
  ∀ path value, read path (.ofJson json) = .ok value →
    ∀ path', read' path' (.ofJson json.merge) = .ok value

theorem merges_string (json : Json) : Merges string string json := by
  intro path value made path'
  cases json with
  | string text => exact made
  | _ => cases made

theorem merges_optionalString (json : Json) : Merges optionalString optionalString json := by
  intro path value made path'
  cases json with
  | null => exact made
  | string text => exact made
  | _ => cases made

variable {read read' : Path → Draft → Load α}

theorem items_merged {items : List Json} (each : ∀ item ∈ items, Merges read read' item)
    {path : Path} {position : Nat} {values : List α}
    (made : Load.items read path position (Draft.ofItems items) = .ok values) (path' : Path)
    (position' : Nat) :
    Load.items read' path' position' (Draft.ofItems (mergeItems items)) = .ok values := by
  induction items generalizing position position' values with
  | nil => exact made
  | cons item rest ih =>
    obtain ⟨here, below⟩ := List.forall_mem_cons.1 each
    obtain ⟨value, first, tail⟩ := bind_eq_ok.1 made
    obtain ⟨others, restMade, done⟩ := bind_eq_ok.1 tail
    exact bind_eq_ok.2 ⟨value, here _ _ first _,
      bind_eq_ok.2 ⟨others, ih below restMade (position' + 1), done⟩⟩

theorem merges_list {json : Json} (each : ∀ item ∈ json.parts, Merges read read' item) :
    Merges (list read) (list read') json := by
  intro path values made path'
  cases json with
  | array items =>
    obtain ⟨found, itemsMade, done⟩ := bind_eq_ok.1 made
    exact bind_eq_ok.2 ⟨found, items_merged each itemsMade path' 0, done⟩
  | _ => cases made

theorem anything_merged {room room' : Draft.Room} {json json' : Json} {path : Path}
    (holds : Draft.Holds room' json.depth)
    (made : anything room path (.ofJson json) = .ok json') (path' : Path) :
    json' = json ∧ anything room' path' (.ofJson json.merge) = .ok json.merge := by
  obtain ⟨same, -⟩ := anything_eq_ok.1 made
  exact ⟨(Draft.ofJson_inj same).symm, anything_eq_ok.2 ⟨rfl, holds.mono (depth_merge_le json)⟩⟩

end Load

structure Slot.Merges (fits : Json → Prop) (slot slot' : Slot σ) : Prop where
  name : slot.name = slot'.name
  required : slot.required = slot'.required
  filled : slot.filled = slot'.filled
  read : ∀ json, fits json → ∀ state, Load.Merges (fun path draft => slot.read path draft state)
    (fun path draft => slot'.read path draft state) json

namespace Form

variable {form form' : Form σ} {path path' : Path} {key : String} {state state' : σ}

def IsSteady (form : Form σ) : Prop :=
  ∀ slot ∈ form.slots, ∀ path draft state state', slot.read path draft state = .ok state' →
    slot.filled state' = true ∧
      ∀ other ∈ form.slots, other.filled state = true → other.filled state' = true

def knows (form : Form σ) (key : String) : Bool :=
  (form.slots.find? fun slot => slot.name = key).isSome

def known (form : Form σ) (members : List (String × Json)) : List (String × Json) :=
  members.filter fun entry => form.knows entry.1

theorem known_cons (key : String) (json : Json) (rest : List (String × Json)) :
    form.known ((key, json) :: rest) =
      if form.knows key then (key, json) :: form.known rest else form.known rest :=
  List.filter_cons

theorem readMember_eq_ok {json : Json} :
    form.readMember path key (.ofJson json) state = .ok state' ↔
      (form.knows key = false ∧ state = state') ∨
        ∃ slot, form.slots.find? (fun slot => slot.name = key) = some slot ∧
          slot.filled state = false ∧
          slot.read (path ++ [.key key]) (.ofJson json) state = .ok state' := by
  rw [knows]
  cases found : form.slots.find? fun slot => slot.name = key with
  | none =>
    rw [readMember_of_none json found]
    simp
  | some slot =>
    rw [readMember.eq_def, found]
    cases occupied : slot.filled state with
    | true => simp [occupied, Load.fail]
    | false => cases json <;> simp [occupied, Draft.ofJson]

/-- Members without a slot leave no trace. -/
theorem readMembers_known (members : List (String × Json)) :
    form.readMembers path (Draft.ofMembers members) state =
      form.readMembers path (Draft.ofMembers (form.known members)) state := by
  induction members generalizing state with
  | nil => rfl
  | cons entry rest ih =>
    obtain ⟨key, json⟩ := entry
    rw [known_cons]
    split
    next => exact congrArg _ (funext fun _ => ih)
    next unknown =>
      have skipped : form.readMember path key (.ofJson json) state = .ok state :=
        readMember_eq_ok.2 (.inl ⟨Bool.not_eq_true _ ▸ unknown, rfl⟩)
      rw [Draft.ofMembers, readMembers, skipped]
      exact ih

/-- A member that was met fills its slot, and so it is not met again. -/
theorem IsSteady.distinct (steady : form.IsSteady) {members : List (String × Json)}
    (made : form.readMembers path (Draft.ofMembers members) state = .ok state') :
    (Record.keys (form.known members)).Nodup ∧
      ∀ key slot, form.slots.find? (fun slot => slot.name = key) = some slot →
        slot.filled state = true → key ∉ Record.keys members := by
  induction members generalizing state with
  | nil => exact ⟨List.nodup_nil, fun _ _ _ _ => List.not_mem_nil⟩
  | cons entry rest ih =>
    obtain ⟨key, json⟩ := entry
    obtain ⟨after, first, tail⟩ := bind_eq_ok.1 made
    obtain ⟨others, apart⟩ := ih tail
    rw [known_cons]
    obtain ⟨unknown, rfl⟩ | ⟨slot, found, vacant, taken⟩ := readMember_eq_ok.1 first
    · rw [unknown]
      refine ⟨others, fun key' slot found filled member => ?_⟩
      obtain rfl | below := List.mem_cons.1 member
      · simp [knows, found] at unknown
      · exact apart key' slot found filled below
    · have declared := List.mem_of_find?_eq_some found
      obtain ⟨filled, keeps⟩ := steady slot declared _ _ _ _ taken
      have fresh := apart key slot found filled
      rw [knows, found]
      refine ⟨List.nodup_cons.2 ⟨fun member => fresh ?_, others⟩, ?_⟩
      · obtain ⟨entry, inside, rfl⟩ := List.mem_map.1 member
        exact List.mem_map_of_mem (List.mem_of_mem_filter inside)
      · intro key' slot' found' filled' member
        obtain rfl | below := List.mem_cons.1 member
        · rw [Option.some.inj (found'.symm.trans found), vacant] at filled'
          cases filled'
        · exact apart key' slot' found'
            (keeps slot' (List.mem_of_find?_eq_some found') filled') below

end Form

/-! ## Reading what was merged -/

section

variable {fits : Json → Prop} {slots slots' : List (Slot σ)}

theorem find?_of_merges (each : List.Forall₂ (Slot.Merges fits) slots slots') (key : String) :
    (slots.find? (fun slot => slot.name = key) = none ∧
      slots'.find? (fun slot => slot.name = key) = none) ∨
    ∃ slot slot', slots.find? (fun slot => slot.name = key) = some slot ∧
      slots'.find? (fun slot => slot.name = key) = some slot' ∧ slot.Merges fits slot' := by
  induction each with
  | nil => exact .inl ⟨rfl, rfl⟩
  | @cons slot slot' slots slots' first _ ih =>
    by_cases same : slot.name = key
    · have same' : slot'.name = key := first.name ▸ same
      exact .inr ⟨slot, slot', List.find?_cons_of_pos (by simpa using same),
        List.find?_cons_of_pos (by simpa using same'), first⟩
    · have other : ¬slot'.name = key := first.name ▸ same
      rwa [List.find?_cons_of_neg (by simpa using same),
        List.find?_cons_of_neg (by simpa using other)]

namespace Form

variable {form form' : Form σ} {path path' : Path} {key : String} {state state' start : σ}

theorem knows_of_merges (each : List.Forall₂ (Slot.Merges fits) form.slots form'.slots) :
    form'.knows = form.knows := by
  funext key
  rw [knows, knows]
  obtain ⟨absent, absent'⟩ | ⟨slot, slot', found, found', -⟩ := find?_of_merges each key
  · rw [absent, absent']
  · rw [found, found']
    rfl

theorem missing?_of_merges (each : List.Forall₂ (Slot.Merges fits) form.slots form'.slots)
    (state : σ) : form'.missing? state = form.missing? state := by
  rw [missing?, missing?]
  generalize form.slots = slots at each ⊢
  generalize form'.slots = slots' at each ⊢
  induction each with
  | nil => rfl
  | @cons slot slot' _ _ first _ ih =>
    rw [List.find?_cons, List.find?_cons, first.required, first.filled]
    cases slot'.required && !slot'.filled state with
    | true => exact congrArg some first.name.symm
    | false => exact ih

theorem readMember_merged (each : List.Forall₂ (Slot.Merges fits) form.slots form'.slots)
    {json : Json} (fit : fits json)
    (made : form.readMember path key (.ofJson json) state = .ok state') (path' : Path) :
    form'.readMember path' key (.ofJson json.merge) state = .ok state' := by
  rw [readMember_eq_ok] at made ⊢
  obtain ⟨unknown, rfl⟩ | ⟨slot, found, vacant, taken⟩ := made
  · exact .inl ⟨knows_of_merges each ▸ unknown, rfl⟩
  · obtain ⟨absent, -⟩ | ⟨_, slot', found', foundMerged, merges⟩ := find?_of_merges each key
    · cases absent.symm.trans found
    · cases found.symm.trans found'
      exact .inr ⟨slot', foundMerged, merges.filled ▸ vacant, merges.read json fit state _ _ taken _⟩

theorem readMembers_mergeMembers (each : List.Forall₂ (Slot.Merges fits) form.slots form'.slots)
    {members : List (String × Json)} (fit : ∀ entry ∈ members, fits entry.2)
    (made : form.readMembers path (Draft.ofMembers members) state = .ok state') (path' : Path) :
    form'.readMembers path' (Draft.ofMembers (mergeMembers members)) state = .ok state' := by
  induction members generalizing state with
  | nil => exact made
  | cons entry rest ih =>
    obtain ⟨here, below⟩ := List.forall_mem_cons.1 fit
    obtain ⟨after, first, tail⟩ := bind_eq_ok.1 made
    exact bind_eq_ok.2 ⟨after, readMember_merged each here first path', ih below tail⟩

theorem readMembers_merged (steady : form.IsSteady)
    (each : List.Forall₂ (Slot.Merges fits) form.slots form'.slots)
    {members : List (String × Json)} (fit : ∀ entry ∈ members, fits entry.2)
    (made : form.readMembers path (Draft.ofMembers members) state = .ok state') (path' : Path) :
    form'.readMembers path' (Draft.ofMembers (Record.ofList (mergeMembers members))) state =
      .ok state' := by
  obtain ⟨distinct, -⟩ := steady.distinct made
  rw [readMembers_known] at made ⊢
  rw [known, knows_of_merges each, filter_merged form.knows distinct]
  exact readMembers_mergeMembers each (fun entry member => fit entry (List.mem_of_mem_filter member))
    made path'

theorem readList_merged (each : List.Forall₂ (Slot.Merges fits) slots slots') {items : List Json}
    (fit : ∀ item ∈ items, fits item) {origin origin' : Origin} {length length' : Nat}
    {position position' : Nat}
    (made : form.readList origin path length none position slots (Draft.ofItems items) state =
      .ok state') :
    form'.readList origin' path' length' none position' slots' (Draft.ofItems (mergeItems items))
      state = .ok state' := by
  induction each generalizing items position position' state with
  | nil =>
    cases items with
    | nil => exact made
    | cons item rest => cases origin <;> cases made
  | @cons slot slot' _ _ first _ ih =>
    cases items with
    | nil =>
      simp only [Draft.ofItems, mergeItems, readList, ← first.required] at made ⊢
      split at made
      next => cases made
      next optional =>
        rw [if_neg optional]
        exact ih fit made
    | cons item rest =>
      obtain ⟨here, below⟩ := List.forall_mem_cons.1 fit
      obtain ⟨after, taken, tail⟩ := bind_eq_ok.1 made
      exact bind_eq_ok.2 ⟨after, first.read item here state _ _ taken _, ih below tail⟩

theorem merges_read (steady : form.IsSteady)
    (each : List.Forall₂ (Slot.Merges fits) form.slots form'.slots) {json : Json}
    (fit : ∀ part ∈ json.parts, fits part) (origin origin' : Origin) :
    Load.Merges (fun path draft => form.read origin path draft start)
      (fun path draft => form'.read origin' path draft start) json := by
  intro path state made path'
  cases json with
  | array items => exact readList_merged each fit made
  | object members =>
    obtain ⟨after, membersMade, tail⟩ := bind_eq_ok.1 made
    have fit' : ∀ entry ∈ members, fits entry.2 :=
      fun entry member => fit _ (List.mem_map_of_mem member)
    refine bind_eq_ok.2 ⟨after, readMembers_merged steady each fit' membersMade path', ?_⟩
    simp only [missing?_of_merges each] at tail ⊢
    cases missing : form.missing? after with
    | none =>
      rw [missing] at tail
      exact tail
    | some name =>
      rw [missing] at tail
      cases tail
  | _ => cases made

end Form

end

end WireSchema
