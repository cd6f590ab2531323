import WireSchema.Proofs.Schema.Merging
import WireSchema.Schema.Loader

/-! Interface descriptions of one document. A text is loaded while it is scanned, and a value after
its repeated keys were merged; both give the same description of a document that repeats no key. -/

namespace WireSchema

open Json Outcome

/-! ## Field types -/

namespace FieldType

theorem ofJson?_merge (json : Json) {type : FieldType} (made : ofJson? json = some type) :
    ofJson? json.merge = some type := by
  fun_induction ofJson? json generalizing type with
  | case1 name => exact made
  | case2 item ih =>
    obtain ⟨inner, innerMade, rfl⟩ := Option.map_eq_some_iff.1 made
    exact Option.map_eq_some_iff.2 ⟨inner, ih innerMade, rfl⟩
  | case3 item ih =>
    obtain ⟨inner, innerMade, rfl⟩ := Option.map_eq_some_iff.1 made
    exact Option.map_eq_some_iff.2 ⟨inner, ih innerMade, rfl⟩
  | case4 item length ih =>
    obtain ⟨inner, innerMade, rest⟩ := Option.bind_eq_some_iff.1 made
    obtain ⟨count, counted, done⟩ := Option.bind_eq_some_iff.1 rest
    have number : length.merge = length := by
      cases length with
      | number n => rfl
      | _ => cases counted
    refine Option.bind_eq_some_iff.2 ⟨inner, ih innerMade, ?_⟩
    exact Option.bind_eq_some_iff.2 ⟨count, number.symm ▸ counted, done⟩
  | case5 key value keyIh valueIh =>
    obtain ⟨first, keyMade, rest⟩ := Option.bind_eq_some_iff.1 made
    obtain ⟨second, valueMade, done⟩ := Option.bind_eq_some_iff.1 rest
    refine Option.bind_eq_some_iff.2 ⟨first, keyIh keyMade, ?_⟩
    exact Option.bind_eq_some_iff.2 ⟨second, valueIh valueMade, done⟩
  | case6 name => exact made
  | case7 => cases made

theorem ofJson_eq_ok {json : Json} {type : FieldType} :
    ofJson json = .ok type ↔ ofJson? json = some type := by
  unfold ofJson
  cases ofJson? json with
  | some other => simp
  | none => cases json <;> simp

end FieldType

/-! ## Fields -/

namespace Field

theorem steady : form.IsSteady := by
  refine List.forall_mem_cons.2 ⟨?name, List.forall_mem_singleton.2 ?type⟩
  case name =>
    intro path draft state state' made
    obtain ⟨text, -, ⟨⟩⟩ := bind_eq_ok.1 made
    exact ⟨rfl, List.forall_mem_cons.2 ⟨fun _ => rfl, List.forall_mem_singleton.2 id⟩⟩
  case type =>
    intro path draft state state' made
    obtain ⟨json, -, rest⟩ := bind_eq_ok.1 made
    cases typed : FieldType.ofJson json with
    | error cause =>
      simp only [typed] at rest
      cases rest
    | ok type =>
      simp only [typed] at rest
      cases rest
      exact ⟨rfl, List.forall_mem_cons.2 ⟨id, List.forall_mem_singleton.2 fun _ => rfl⟩⟩

theorem slots_merge : List.Forall₂ (Slot.Merges fun _ => True) form.slots form.slots := by
  refine .cons ⟨rfl, rfl, rfl, ?name⟩ (.cons ⟨rfl, rfl, rfl, ?type⟩ .nil)
  case name =>
    intro json _ state path state' made path'
    obtain ⟨text, read, done⟩ := bind_eq_ok.1 made
    exact bind_eq_ok.2 ⟨text, Load.merges_string json path text read path', done⟩
  case type =>
    intro json _ state path state' made path'
    obtain ⟨whole, read, rest⟩ := bind_eq_ok.1 made
    obtain ⟨rfl, merged⟩ := @Load.anything_merged none none _ _ _ trivial read path'
    refine bind_eq_ok.2 ⟨_, merged, ?_⟩
    cases typed : FieldType.ofJson whole with
    | error cause =>
      simp only [typed] at rest
      cases rest
    | ok type =>
      have kept := FieldType.ofJson?_merge whole (FieldType.ofJson_eq_ok.1 typed)
      simp only [typed, FieldType.ofJson_eq_ok.2 kept] at rest ⊢
      exact rest

theorem merges_load (json : Json) : Load.Merges load load json := by
  intro path field made path'
  obtain ⟨⟨name, type⟩, read, rest⟩ := bind_eq_ok.1 made
  have merged := Form.merges_read steady slots_merge (fun _ _ => trivial) .part .part path _ read
    path'
  refine bind_eq_ok.2 ⟨_, merged, ?_⟩
  cases name with
  | none => cases rest
  | some name =>
    cases type with
    | none => cases rest
    | some type => exact rest

/-- What is a field type is no field. -/
theorem load_ne_ok_of_type {json : Json} {type : FieldType}
    (typed : FieldType.ofJson? json = some type) (path : Path) (field : Field) :
    load path (.ofJson json) ≠ .ok field := by
  -- Composites are objects without the members of a field.
  have composite (key : String) (json : Json)
      (unknown : form.slots.find? (fun slot => slot.name = key) = none) :
      load path (.ofJson (.object [(key, json)])) ≠ .ok field := by
    intro made
    obtain ⟨state, read, -⟩ := bind_eq_ok.1 made
    obtain ⟨after, membersRead, rest⟩ := bind_eq_ok.1 read
    obtain ⟨middle, first, last⟩ := bind_eq_ok.1 membersRead
    rw [Form.readMember_of_none json unknown] at first
    cases first
    cases last
    cases rest
  revert typed
  fun_cases FieldType.ofJson? json with
  | case1 name => exact fun _ => nofun
  | case2 item => exact fun _ => composite "vec" _ rfl
  | case3 item => exact fun _ => composite "option" _ rfl
  | case4 item length => exact fun _ => composite "array" _ rfl
  | case5 key value => exact fun _ => composite "hashMap" _ rfl
  | case6 name => exact fun _ => composite "defined" _ rfl
  | case7 => exact nofun

end Field

/-! ## Variants -/

namespace Shape

theorem fields_merged {items : List Json} {fields : List Field}
    (made : (items.map Draft.ofJson).mapM (Field.load []) = .ok fields) :
    ((items.map merge).map Draft.ofJson).mapM (Field.load []) = .ok fields := by
  have each := List.forall₂_map_left_iff.1 (mapM_eq_ok.1 made)
  refine mapM_eq_ok.2 (List.forall₂_map_left_iff.2 (List.forall₂_map_left_iff.2 ?_))
  exact each.imp fun item field loaded => Field.merges_load item [] field loaded []

theorem types_merged {items : List Json} {types : List FieldType}
    (made : items.mapM FieldType.ofJson? = some types) :
    (items.map merge).mapM FieldType.ofJson? = some types := by
  induction items generalizing types with
  | nil => exact made
  | cons item rest ih =>
    rw [List.mapM_cons] at made
    rw [List.map_cons, List.mapM_cons]
    obtain ⟨type, first, tail⟩ := Option.bind_eq_some_iff.1 made
    obtain ⟨others, restMade, done⟩ := Option.bind_eq_some_iff.1 tail
    exact Option.bind_eq_some_iff.2 ⟨type, FieldType.ofJson?_merge item first,
      Option.bind_eq_some_iff.2 ⟨others, ih restMade, done⟩⟩

/-- Field types are not mistaken for fields. -/
theorem fields_of_types {items : List Json} {types : List FieldType} {fields : List Field}
    (typed : items.mapM FieldType.ofJson? = some types)
    (made : (items.map Draft.ofJson).mapM (Field.load []) = .ok fields) : items = [] := by
  cases items with
  | nil => rfl
  | cons item rest =>
    rw [List.mapM_cons] at typed
    obtain ⟨type, first, -⟩ := Option.bind_eq_some_iff.1 typed
    cases mapM_eq_ok.1 made with
    | cons loaded _ => exact absurd loaded (Field.load_ne_ok_of_type first [] _)

theorem ofJson_merge {json : Json} {shape : Shape} (made : ofJson json = .ok shape) :
    ofJson json.merge = .ok shape := by
  cases json with
  | array items =>
    have merged : (Json.array items).merge = .array (items.map merge) :=
      congrArg Json.array (mergeItems_eq_map items)
    rw [merged]
    unfold ofJson at made ⊢
    simp only at made ⊢
    cases loaded : (items.map Draft.ofJson).mapM (Field.load []) with
    | ok fields =>
      rw [loaded] at made
      rw [fields_merged loaded]
      cases fields <;> exact made
    | error error =>
      rw [loaded] at made
      cases typed : items.mapM FieldType.ofJson? with
      | none =>
        rw [typed] at made
        cases made
      | some types =>
        rw [typed] at made
        cases made
        have kept := types_merged typed
        cases again : ((items.map merge).map Draft.ofJson).mapM (Field.load []) with
        | error error => rw [kept]
        | ok fields =>
          obtain rfl : items = [] := List.map_eq_nil_iff.1 (fields_of_types kept again)
          cases loaded
  | _ => cases made

end Shape

namespace Variant

def IsContent (shape : Shape) (json : Json) : Prop :=
  (json = .null ∧ shape = .empty) ∨ Shape.ofJson json = .ok shape

theorem IsContent.merge {shape : Shape} {json : Json} (content : IsContent shape json) :
    IsContent shape json.merge := by
  obtain ⟨rfl, rfl⟩ | made := content
  · exact .inl ⟨rfl, rfl⟩
  · exact .inr (Shape.ofJson_merge made)

theorem content_eq_ok {json : Json} {path : Path} {state state' : VariantDraft} :
    (match json with
      | .null => pure { state with shape := some .empty }
      | json =>
        match Shape.ofJson json with
        | .ok shape => pure { state with shape := some shape }
        | .error cause => Load.fail path cause : Load VariantDraft) = .ok state' ↔
      ∃ shape, IsContent shape json ∧ { state with shape := some shape } = state' := by
  have array (items : List Json) : (match Shape.ofJson (.array items) with
        | .ok shape => pure { state with shape := some shape }
        | .error cause => Load.fail path cause : Load VariantDraft) = .ok state' ↔
      ∃ shape, IsContent shape (.array items) ∧ { state with shape := some shape } = state' := by
    cases shaped : Shape.ofJson (.array items) with
    | ok shape => simp [IsContent, shaped, pure_eq_ok]
    | error cause => simp [IsContent, shaped, Load.fail]
  cases json with
  | null => simp [IsContent, Shape.ofJson, pure_eq_ok]
  | array items => exact array items
  | _ => simp [IsContent, Shape.ofJson, Load.fail]

theorem steady : form.IsSteady := by
  refine List.forall_mem_cons.2 ⟨?name, List.forall_mem_singleton.2 ?fields⟩
  case name =>
    intro path draft state state' made
    obtain ⟨text, -, ⟨⟩⟩ := bind_eq_ok.1 made
    exact ⟨rfl, List.forall_mem_cons.2 ⟨fun _ => rfl, List.forall_mem_singleton.2 id⟩⟩
  case fields =>
    intro path draft state state' made
    obtain ⟨json, -, rest⟩ := bind_eq_ok.1 made
    obtain ⟨shape, -, rfl⟩ := content_eq_ok.1 rest
    exact ⟨rfl, List.forall_mem_cons.2 ⟨id, List.forall_mem_singleton.2 fun _ => rfl⟩⟩

theorem slots_merge : List.Forall₂ (Slot.Merges fun _ => True) form.slots form.slots := by
  refine .cons ⟨rfl, rfl, rfl, ?name⟩ (.cons ⟨rfl, rfl, rfl, ?fields⟩ .nil)
  case name =>
    intro json _ state path state' made path'
    obtain ⟨text, read, done⟩ := bind_eq_ok.1 made
    exact bind_eq_ok.2 ⟨text, Load.merges_string json path text read path', done⟩
  case fields =>
    intro json _ state path state' made path'
    obtain ⟨whole, read, rest⟩ := bind_eq_ok.1 made
    obtain ⟨rfl, merged⟩ := @Load.anything_merged none none _ _ _ trivial read path'
    obtain ⟨shape, content, done⟩ := content_eq_ok.1 rest
    exact bind_eq_ok.2 ⟨_, merged, content_eq_ok.2 ⟨shape, content.merge, done⟩⟩

theorem merges_load (json : Json) : Load.Merges load load json := by
  intro path variant made path'
  obtain ⟨⟨name, shape⟩, read, rest⟩ := bind_eq_ok.1 made
  have merged := Form.merges_read steady slots_merge (fun _ _ => trivial) .part .part path _ read
    path'
  refine bind_eq_ok.2 ⟨_, merged, ?_⟩
  cases name with
  | none => cases rest
  | some name => exact rest

end Variant

/-! ## Bodies -/

namespace TypeBody

theorem loadKind_eq_ok {json : Json} {kind : DefinedKind} {path : Path} :
    loadKind path (.ofJson json) = .ok kind ↔ json = .string kind.text := by
  constructor
  · intro made
    cases json with
    | string text =>
      rw [Draft.ofJson] at made
      unfold loadKind at made
      split at made
      next same =>
        cases made
        cases same
        rfl
      next same =>
        cases made
        cases same
        rfl
      next => cases made
      next other => cases made
    | _ => cases made
  · rintro rfl
    cases kind <;> rfl

def kinds (members : List (String × Json)) : List Json :=
  (members.filter fun entry => decide (entry.1 = "kind")).map Prod.snd

def others (members : List (String × Json)) : List (String × Json) :=
  members.filter fun entry => !decide (entry.1 = "kind")

def texts (kind : Option DefinedKind) : List Json :=
  kind.toList.map fun kind => Json.string kind.text

theorem texts_inj {kind kind' : Option DefinedKind} : texts kind = texts kind' ↔ kind = kind' := by
  constructor
  · intro same
    match kind, kind' with
    | none, none => rfl
    | none, some _ => cases same
    | some _, none => cases same
    | some .struct, some .struct => rfl
    | some .enum, some .enum => rfl
    | some .struct, some .enum => simp [texts, DefinedKind.text] at same
    | some .enum, some .struct => simp [texts, DefinedKind.text] at same
  · exact congrArg texts

/-- A kind is met once, wherever it stands. -/
theorem splitMembers_eq_ok {room : Draft.Room} {path : Path} {members rest : List (String × Json)}
    {met kind : Option DefinedKind} :
    splitMembers room path (Draft.ofMembers members) met = .ok (kind, rest) ↔
      texts met ++ kinds members = texts kind ∧ rest = others members ∧
        ∀ entry ∈ others members, Draft.Holds room entry.2.depth := by
  induction members generalizing met rest with
  | nil =>
    have single : splitMembers room path (Draft.ofMembers []) met = .ok (met, []) := rfl
    rw [single, Except.ok.injEq, Prod.mk.injEq]
    simp [kinds, others, texts_inj, eq_comm]
  | cons entry members ih =>
    obtain ⟨key, json⟩ := entry
    by_cases isKind : key = "kind"
    · subst isKind
      have first : kinds (("kind", json) :: members) = json :: kinds members := rfl
      have same : others (("kind", json) :: members) = others members := rfl
      rw [first, same, Draft.ofMembers, splitMembers, if_pos rfl]
      · cases met with
        | some given =>
          have two : texts (some given) ++ json :: kinds members ≠ texts kind := fun counted => by
            have lengths := congrArg List.length counted
            cases kind <;> simp [texts] at lengths
          simp [two, Load.fail]
        | none =>
          rw [if_neg (by simp), bind_eq_ok]
          constructor
          · rintro ⟨found, loaded, tail⟩
            rw [loadKind_eq_ok.1 loaded]
            exact ih.1 tail
          · rintro ⟨counted, rfl, holds⟩
            cases kind with
            | none => cases counted
            | some found =>
              obtain ⟨rfl, alone⟩ := List.cons.inj counted
              refine ⟨found, loadKind_eq_ok.2 rfl, ih.2 ⟨?_, rfl, holds⟩⟩
              rw [alone]
              rfl
      · exact Draft.ofJson_ne_noColon json
    · have same : kinds ((key, json) :: members) = kinds members := by simp [kinds, isKind]
      have more : others ((key, json) :: members) = (key, json) :: others members := by
        simp [others, isKind]
      rw [same, more, List.forall_mem_cons, Draft.ofMembers, splitMembers, if_neg isKind,
        bind_eq_ok]
      · constructor
        · rintro ⟨whole, read, tail⟩
          obtain ⟨⟨found, rest'⟩, below, done⟩ := bind_eq_ok.1 tail
          obtain ⟨spelled, here⟩ := Load.anything_eq_ok.1 read
          obtain rfl := Draft.ofJson_inj spelled
          cases done
          obtain ⟨counted, rfl, holds⟩ := ih.1 below
          exact ⟨counted, rfl, here, holds⟩
        · rintro ⟨counted, rfl, here, below⟩
          refine ⟨json, Load.anything_eq_ok.2 ⟨rfl, here⟩, ?_⟩
          exact bind_eq_ok.2 ⟨(kind, others members), ih.2 ⟨counted, rfl, below⟩, rfl⟩
      · exact Draft.ofJson_ne_noColon json

/-- The kind of a body that is spelled out in full, and what goes with it. -/
inductive Separates (room : Draft.Room) : Json → DefinedKind → Json → Prop
  | object {members : List (String × Json)} {kind : DefinedKind}
      (once : kinds members = [.string kind.text])
      (holds : ∀ entry ∈ others members, Draft.Holds room entry.2.depth) :
      Separates room (.object members) kind (.object (others members))
  | array {kind : DefinedKind} {rest : List Json}
      (holds : ∀ item ∈ rest, Draft.Holds room item.depth) :
      Separates room (.array (.string kind.text :: rest)) kind (.array rest)

theorem items_anything_eq_ok {room : Draft.Room} {path : Path} {position : Nat}
    {items values : List Json} :
    Load.items (Load.anything room) path position (Draft.ofItems items) = .ok values ↔
      values = items ∧ ∀ item ∈ items, Draft.Holds room item.depth := by
  induction items generalizing position values with
  | nil =>
    rw [Draft.ofItems, Load.items, Except.ok.injEq]
    simp [eq_comm]
  | cons item rest ih =>
    rw [Draft.ofItems, Load.items, bind_eq_ok, List.forall_mem_cons]
    constructor
    · rintro ⟨whole, read, tail⟩
      obtain ⟨values', below, done⟩ := bind_eq_ok.1 tail
      obtain ⟨spelled, here⟩ := Load.anything_eq_ok.1 read
      obtain rfl := Draft.ofJson_inj spelled
      cases done
      obtain ⟨rfl, holds⟩ := ih.1 below
      exact ⟨rfl, here, holds⟩
    · rintro ⟨rfl, here, below⟩
      exact ⟨item, Load.anything_eq_ok.2 ⟨rfl, here⟩,
        bind_eq_ok.2 ⟨rest, ih.2 ⟨rfl, below⟩, rfl⟩⟩

theorem loadContent_eq_ok {room : Draft.Room} {path : Path} {json content : Json}
    {kind : DefinedKind} :
    loadContent room path (.ofJson json) = .ok (kind, content) ↔
      Separates room json kind content := by
  constructor
  · intro made
    cases json with
    | object members =>
      obtain ⟨⟨found, rest⟩, split, tail⟩ := bind_eq_ok.1 made
      obtain ⟨counted, rfl, holds⟩ := splitMembers_eq_ok.1 split
      cases found with
      | none => cases tail
      | some found =>
        cases tail
        exact .object counted holds
    | array items =>
      cases items with
      | nil => cases made
      | cons first rest =>
        obtain ⟨found, loaded, tail⟩ := bind_eq_ok.1 made
        obtain ⟨values, read, done⟩ := bind_eq_ok.1 tail
        obtain rfl := loadKind_eq_ok.1 loaded
        obtain ⟨rfl, holds⟩ := items_anything_eq_ok.1 read
        cases done
        exact .array holds
    | _ => cases made
  · intro separates
    cases separates with
    | object once holds =>
      exact bind_eq_ok.2 ⟨(some kind, _), splitMembers_eq_ok.2 ⟨once, rfl, holds⟩, rfl⟩
    | array holds =>
      exact bind_eq_ok.2 ⟨kind, loadKind_eq_ok.2 rfl,
        bind_eq_ok.2 ⟨_, items_anything_eq_ok.2 ⟨rfl, holds⟩, rfl⟩⟩

theorem kinds_merged {members : List (String × Json)} {kind : DefinedKind}
    (once : kinds members = [.string kind.text]) :
    kinds (Record.ofList (mergeMembers members)) = [.string kind.text] := by
  have single : (members.filter fun entry => decide (entry.1 = "kind")).length = 1 := by
    simpa [kinds] using congrArg List.length once
  obtain ⟨entry, alone⟩ := List.length_eq_one_iff.1 single
  have distinct : (Record.keys (members.filter fun entry => decide (entry.1 = "kind"))).Nodup := by
    rw [alone]
    exact List.nodup_singleton _
  rw [kinds, alone] at once
  rw [kinds, filter_merged (fun key => decide (key = "kind")) distinct, alone]
  exact congrArg (List.map merge) once

theorem others_merged (members : List (String × Json)) :
    others (Record.ofList (mergeMembers members)) =
      Record.ofList (mergeMembers (others members)) := by
  rw [others, Record.filter_ofList (fun key => !decide (key = "kind")), mergeMembers_eq_map,
    mergeMembers_eq_map, List.filter_map]
  rfl

theorem Separates.merge {room room' : Draft.Room} {json content : Json} {kind : DefinedKind}
    (separates : Separates room json kind content)
    (holds : ∀ part ∈ json.parts, Draft.Holds room' part.depth) :
    Separates room' json.merge kind content.merge := by
  cases separates with
  | @object members _ once _ =>
    rw [Json.merge, Json.merge, ← others_merged]
    refine .object (kinds_merged once) fun entry member => ?_
    have inside := Record.mem_of_mem_ofList (List.mem_of_mem_filter member)
    rw [mergeMembers_eq_map] at inside
    obtain ⟨⟨key, json⟩, original, rfl⟩ := List.mem_map.1 inside
    exact (holds json (List.mem_map_of_mem original)).mono (depth_merge_le json)
  | @array _ rest _ =>
    refine .array fun item member => ?_
    rw [mergeItems_eq_map] at member
    obtain ⟨original, inside, rfl⟩ := List.mem_map.1 member
    exact (holds original (List.mem_cons_of_mem _ inside)).mono (depth_merge_le original)

def listForm (expected name : String) (load : Path → Draft → Load α) : Form (Option (List α)) :=
  ⟨expected, [⟨name, true, Option.isSome, fun path draft _ => do
    return some (← Load.list load path draft)⟩]⟩

theorem merges_listForm {load : Path → Draft → Load α} (expected name : String)
    (merges : ∀ json, Load.Merges load load json) (content : Json) :
    Load.Merges (fun path draft => (listForm expected name load).read .part path draft none)
      (fun path draft => (listForm expected name load).read .part path draft none) content := by
  have steady : (listForm expected name load).IsSteady := by
    refine List.forall_mem_singleton.2 fun path draft state state' made => ?_
    obtain ⟨values, -, ⟨⟩⟩ := bind_eq_ok.1 made
    exact ⟨rfl, List.forall_mem_singleton.2 fun _ => rfl⟩
  have slots : List.Forall₂ (Slot.Merges fun _ => True) (listForm expected name load).slots
      (listForm expected name load).slots := by
    refine .cons ⟨rfl, rfl, rfl, ?_⟩ .nil
    intro json _ state path state' made path'
    obtain ⟨values, read, done⟩ := bind_eq_ok.1 made
    exact bind_eq_ok.2 ⟨values, Load.merges_list (fun item _ => merges item) path values read path',
      done⟩
  exact Form.merges_read steady slots (fun _ _ => trivial) .part .part

theorem ofContent_merge {kind : DefinedKind} {content : Json} {body : TypeBody}
    (made : ofContent kind content = .ok body) : ofContent kind content.merge = .ok body := by
  cases kind with
  | struct =>
    obtain ⟨fields, read, done⟩ := bind_eq_ok.1 made
    have merges := merges_listForm structForm.expected "fields" Field.merges_load content
    exact bind_eq_ok.2 ⟨fields, merges [] fields read [], done⟩
  | enum =>
    obtain ⟨variants, read, done⟩ := bind_eq_ok.1 made
    have merges := merges_listForm enumForm.expected "variants" Variant.merges_load content
    exact bind_eq_ok.2 ⟨variants, merges [] variants read [], done⟩

theorem load_eq_ok {room : Draft.Room} {path : Path} {json : Json} {body : TypeBody} :
    load room path (.ofJson json) = .ok body ↔
      ∃ kind content, Separates room json kind content ∧ ofContent kind content = .ok body := by
  rw [load, bind_eq_ok]
  constructor
  · rintro ⟨⟨kind, content⟩, loaded, tail⟩
    refine ⟨kind, content, loadContent_eq_ok.1 loaded, ?_⟩
    cases made : ofContent kind content with
    | ok body' =>
      simp only [made] at tail
      exact tail
    | error located =>
      simp only [made] at tail
      cases tail
  · rintro ⟨kind, content, separates, made⟩
    refine ⟨(kind, content), loadContent_eq_ok.2 separates, ?_⟩
    simp only [made]
    rfl

theorem merges_load {room room' : Draft.Room} {json : Json}
    (holds : ∀ part ∈ json.parts, Draft.Holds room' part.depth) :
    Load.Merges (load room) (load room') json := by
  intro path body made path'
  obtain ⟨kind, content, separates, read⟩ := load_eq_ok.1 made
  exact load_eq_ok.2 ⟨kind, _, separates.merge holds, ofContent_merge read⟩

end TypeBody

/-! ## Documents -/

namespace TypeDef

variable {room room' : Draft.Room}

theorem steady : (form room).IsSteady := by
  refine List.forall_mem_cons.2 ⟨?name, List.forall_mem_singleton.2 ?type⟩
  case name =>
    intro path draft state state' made
    obtain ⟨text, -, ⟨⟩⟩ := bind_eq_ok.1 made
    exact ⟨rfl, List.forall_mem_cons.2 ⟨fun _ => rfl, List.forall_mem_singleton.2 id⟩⟩
  case type =>
    intro path draft state state' made
    obtain ⟨body, -, ⟨⟩⟩ := bind_eq_ok.1 made
    exact ⟨rfl, List.forall_mem_cons.2 ⟨id, List.forall_mem_singleton.2 fun _ => rfl⟩⟩

theorem slots_merge :
    List.Forall₂ (Slot.Merges fun json => Draft.Holds room' (json.depth - 1)) (form room).slots
      (form room').slots := by
  refine .cons ⟨rfl, rfl, rfl, ?name⟩ (.cons ⟨rfl, rfl, rfl, ?type⟩ .nil)
  case name =>
    intro json _ state path state' made path'
    obtain ⟨text, read, done⟩ := bind_eq_ok.1 made
    exact bind_eq_ok.2 ⟨text, Load.merges_string json path text read path', done⟩
  case type =>
    intro json holds state path state' made path'
    obtain ⟨body, read, done⟩ := bind_eq_ok.1 made
    have inside (part : Json) (member : part ∈ json.parts) : Draft.Holds room' part.depth :=
      holds.mono (Nat.le_sub_one_of_lt (depth_lt_of_mem_parts member))
    exact bind_eq_ok.2 ⟨body, TypeBody.merges_load inside path body read path', done⟩

theorem merges_load {json : Json} (holds : Draft.Holds room' (json.depth - 2))
    (origin origin' : Origin) : Load.Merges (load origin room) (load origin' room') json := by
  intro path type made path'
  obtain ⟨⟨name, body⟩, read, rest⟩ := bind_eq_ok.1 made
  have inside (part : Json) (member : part ∈ json.parts) : Draft.Holds room' (part.depth - 1) :=
    holds.mono (Nat.sub_le_sub_right (Nat.le_sub_one_of_lt (depth_lt_of_mem_parts member)) 1)
  have merged := Form.merges_read steady slots_merge inside origin origin' path _ read path'
  refine bind_eq_ok.2 ⟨_, merged, ?_⟩
  cases name with
  | none => cases rest
  | some name =>
    cases body with
    | none => cases rest
    | some body => exact rest

end TypeDef

namespace Idl

variable {room room' : Draft.Room} {origin origin' : Origin}

theorem steady : (form origin room).IsSteady := by
  refine List.forall_mem_cons.2
    ⟨?version, List.forall_mem_cons.2 ⟨?name, List.forall_mem_singleton.2 ?types⟩⟩
  case version =>
    intro path draft state state' made
    obtain ⟨text, -, ⟨⟩⟩ := bind_eq_ok.1 made
    exact ⟨rfl, List.forall_mem_cons.2
      ⟨fun _ => rfl, List.forall_mem_cons.2 ⟨id, List.forall_mem_singleton.2 id⟩⟩⟩
  case name =>
    intro path draft state state' made
    obtain ⟨text, -, ⟨⟩⟩ := bind_eq_ok.1 made
    exact ⟨rfl, List.forall_mem_cons.2
      ⟨id, List.forall_mem_cons.2 ⟨fun _ => rfl, List.forall_mem_singleton.2 id⟩⟩⟩
  case types =>
    intro path draft state state' made
    obtain ⟨types, -, ⟨⟩⟩ := bind_eq_ok.1 made
    exact ⟨rfl, List.forall_mem_cons.2
      ⟨id, List.forall_mem_cons.2 ⟨id, List.forall_mem_singleton.2 fun _ => rfl⟩⟩⟩

theorem slots_merge :
    List.Forall₂ (Slot.Merges fun json => Draft.Holds room' (json.depth - 3))
      (form origin room).slots (form origin' room').slots := by
  refine .cons ⟨rfl, rfl, rfl, ?version⟩
    (.cons ⟨rfl, rfl, rfl, ?name⟩ (.cons ⟨rfl, rfl, rfl, ?types⟩ .nil))
  case version =>
    intro json _ state path state' made path'
    obtain ⟨text, read, done⟩ := bind_eq_ok.1 made
    exact bind_eq_ok.2 ⟨text, Load.merges_optionalString json path text read path', done⟩
  case name =>
    intro json _ state path state' made path'
    obtain ⟨text, read, done⟩ := bind_eq_ok.1 made
    exact bind_eq_ok.2 ⟨text, Load.merges_optionalString json path text read path', done⟩
  case types =>
    intro json holds state path state' made path'
    obtain ⟨types, read, done⟩ := bind_eq_ok.1 made
    have each (item : Json) (member : item ∈ json.parts) :
        Load.Merges (TypeDef.load origin room) (TypeDef.load origin' room') item :=
      TypeDef.merges_load
        (holds.mono (Nat.sub_le_sub_right (Nat.le_sub_one_of_lt (depth_lt_of_mem_parts member)) 2))
        origin origin'
    exact bind_eq_ok.2 ⟨types, Load.merges_list each path types read path', done⟩

/-- Four brackets are open inside the body of a definition. -/
theorem load_merge {json : Json} (holds : Draft.Holds room' (json.depth - 4)) {idl : Idl}
    (made : load origin room (.ofJson json) = .ok idl) :
    load origin' room' (.ofJson json.merge) = .ok idl := by
  unfold load at made ⊢
  have inside (part : Json) (member : part ∈ json.parts) : Draft.Holds room' (part.depth - 3) :=
    holds.mono (Nat.sub_le_sub_right (Nat.le_sub_one_of_lt (depth_lt_of_mem_parts member)) 3)
  cases read : (form origin room).read origin [] (.ofJson json) ⟨none, none, none⟩ with
  | error located =>
    rw [read] at made
    cases made
  | ok state =>
    have merged : (form origin' room').read origin' [] (.ofJson json.merge) ⟨none, none, none⟩ =
        .ok state := Form.merges_read steady slots_merge inside origin origin' [] state read []
    rw [merged]
    rw [read] at made
    exact made

end Idl

end WireSchema
