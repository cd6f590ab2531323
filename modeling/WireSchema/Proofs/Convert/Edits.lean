import Mathlib.Logic.Relation
import WireSchema.Proofs.Convert.ToJson

/-! Edits of JSON that leave no trace in what is read. Reading looks declared members up by name,
in the order of declaration, and looks at nothing else, be it for a value or for an error. -/

namespace WireSchema

open Relation Outcome

namespace Json

/- One edit, at any depth where JSON is read at a type. Parts are added or replaced here; what is
added may be taken away again by the edit the other way round. Objects have each key once. -/
mutual

inductive Edit (table : Table) : FieldType → Json → Json → Prop
  | option {item : FieldType} {json json' : Json} (inner : Edit table item json json') :
      Edit table (.option item) json json'
  | vec {item : FieldType} {before after : List Json} {json json' : Json}
      (inner : Edit table item json json') :
      Edit table (.vec item) (.array (before ++ json :: after)) (.array (before ++ json' :: after))
  | array {item : FieldType} {length : Nat} {before after : List Json} {json json' : Json}
      (inner : Edit table item json json') :
      Edit table (.array item length) (.array (before ++ json :: after))
        (.array (before ++ json' :: after))
  | key {key item : FieldType} {before after : List Json} {json json' value : Json}
      (inner : Edit table key json json') :
      Edit table (.hashMap key item) (.array (before ++ .array [json, value] :: after))
        (.array (before ++ .array [json', value] :: after))
  | item {key item : FieldType} {before after : List Json} {json json' value : Json}
      (inner : Edit table item json json') :
      Edit table (.hashMap key item) (.array (before ++ .array [value, json] :: after))
        (.array (before ++ .array [value, json'] :: after))
  | struct {name : String} {declared : List Field} {members members' : Record Json}
      (known : table.body? name = some (.struct declared))
      (inner : MembersEdit table declared members members') :
      Edit table (.defined name) (.object members) (.object members')
  | enumPermuted {name : String} {variants : List Variant} {members members' : Record Json}
      (known : table.body? name = some (.enum variants)) (distinct : (Record.keys members).Nodup)
      (perm : members.Perm members') :
      Edit table (.defined name) (.object members) (.object members')
  | enumAdded {name key : String} {variants : List Variant} {before after : Record Json}
      {json : Json} (known : table.body? name = some (.enum variants)) (notKind : key ≠ "kind")
      (notValue : key ≠ "value") :
      Edit table (.defined name) (.object (before ++ after))
        (.object (before ++ (key, json) :: after))
  /-- An empty variant has no use for a body. -/
  | emptyBody {name kind : String} {variants : List Variant} {position : Nat} {variant : Variant}
      {before after : Record Json} {json : Json}
      (known : table.body? name = some (.enum variants))
      (found : Record.get? (before ++ after) "kind" = some (.string kind))
      (chosen : Convert.findVariant name variants kind = .ok (position, variant))
      (empty : variant.shape = .empty) :
      Edit table (.defined name) (.object (before ++ after))
        (.object (before ++ ("value", json) :: after))
  | body {name kind : String} {variants : List Variant} {position : Nat} {variant : Variant}
      {before after : Record Json} {json json' : Json}
      (known : table.body? name = some (.enum variants))
      (found : Record.get? (before ++ after) "kind" = some (.string kind))
      (chosen : Convert.findVariant name variants kind = .ok (position, variant))
      (fresh : "value" ∉ Record.keys before) (inner : BodyEdit table variant.shape json json') :
      Edit table (.defined name) (.object (before ++ ("value", json) :: after))
        (.object (before ++ ("value", json') :: after))

inductive MembersEdit (table : Table) : List Field → Record Json → Record Json → Prop
  | permuted {declared : List Field} {members members' : Record Json}
      (distinct : (Record.keys members).Nodup) (perm : members.Perm members') :
      MembersEdit table declared members members'
  | added {declared : List Field} {before after : Record Json} {key : String} {json : Json}
      (undeclared : key ∉ declared.map Field.name) :
      MembersEdit table declared (before ++ after) (before ++ (key, json) :: after)
  | null {declared : List Field} {field : Field} {item : FieldType} {before after : Record Json}
      (member : field ∈ declared) (optional : field.type = .option item)
      (absent : field.name ∉ Record.keys (before ++ after)) :
      MembersEdit table declared (before ++ after) (before ++ (field.name, .null) :: after)
  | inside {declared : List Field} {field : Field} {before after : Record Json} {json json' : Json}
      (member : field ∈ declared) (fresh : field.name ∉ Record.keys before)
      (inner : Edit table field.type json json') :
      MembersEdit table declared (before ++ (field.name, json) :: after)
        (before ++ (field.name, json') :: after)

inductive BodyEdit (table : Table) : Shape → Json → Json → Prop
  | named {declared : List Field} {members members' : Record Json}
      (inner : MembersEdit table declared members members') :
      BodyEdit table (.named declared) (.object members) (.object members')
  | tuple {types : List FieldType} {type : FieldType} {before after : List Json}
      {json json' : Json} (declared : types[before.length]? = some type)
      (inner : Edit table type json json') :
      BodyEdit table (.tuple types) (.array (before ++ json :: after))
        (.array (before ++ json' :: after))

end

variable {table : Table}

/-- What is edited is an array or an object, under whatever options. -/
theorem Edit.ne_null {type : FieldType} {json json' : Json} :
    Edit table type json json' → json ≠ .null ∧ json' ≠ .null
  | .option inner => inner.ne_null
  | .vec _ | .array _ | .key _ | .item _ | .struct _ _ | .enumPermuted _ _ _ | .enumAdded _ _ _
  | .emptyBody _ _ _ _ | .body _ _ _ _ _ => ⟨nofun, nofun⟩

end Json

namespace Convert

variable {converters converters' : Record (Converter β)} {absent : β} {path : String}

theorem membersOr_cons (field : Field) (rest : List Field) :
    membersOr absent converters path (field :: rest) =
      membersOr absent converters path [field] >>= fun head =>
        membersOr absent converters path rest >>= fun tail => pure (head ++ tail) := by
  obtain ⟨name, type⟩ := field
  simp only [membersOr]
  cases Record.get? converters name with
  | some convert =>
    simp only
    cases convert type (atField path name) <;> rfl
  | none => cases type <;> rfl

/-- Members are read one by one. -/
theorem membersOr_congr {declared : List Field}
    (alike : ∀ field ∈ declared, membersOr absent converters path [field] =
      membersOr absent converters' path [field]) :
    membersOr absent converters path declared = membersOr absent converters' path declared := by
  induction declared with
  | nil => rfl
  | cons field rest ih =>
    obtain ⟨first, others⟩ := List.forall_mem_cons.1 alike
    rw [membersOr_cons, first, ih others, ← membersOr_cons]

theorem membersOr_of_get? {field : Field}
    (same : Record.get? converters field.name = Record.get? converters' field.name) :
    membersOr absent converters path [field] = membersOr absent converters' path [field] := by
  simp only [membersOr, same]

end Convert

namespace Value

variable {table : Table}

/-! ## Lists -/

section

variable {before after : List Json} {json json' : Json}

theorem ofJsonItems_congr {item : FieldType}
    (alike : ∀ path, ofJson table json item path = ofJson table json' item path) (path : String)
    (position : Nat) :
    ofJsonItems table (before ++ json :: after) item path position =
      ofJsonItems table (before ++ json' :: after) item path position := by
  induction before generalizing position with
  | nil => simp only [List.nil_append, ofJsonItems, alike]
  | cons first rest ih => simp only [List.cons_append, ofJsonItems, ih]

theorem ofJsonPairs_congr {key item : FieldType}
    (alike : ∀ path, ofJsonPair table json key item path = ofJsonPair table json' key item path)
    (path : String) (position : Nat) :
    ofJsonPairs table (before ++ json :: after) key item path position =
      ofJsonPairs table (before ++ json' :: after) key item path position := by
  induction before generalizing position with
  | nil => simp only [List.nil_append, ofJsonPairs, alike]
  | cons first rest ih => simp only [List.cons_append, ofJsonPairs, ih]

theorem ofJsonElements_congr {types : List FieldType} {type : FieldType}
    (declared : types[before.length]? = some type)
    (alike : ∀ path, ofJson table json type path = ofJson table json' type path) (path : String)
    (position : Nat) :
    Convert.elements path position types (ofJsonElements table (before ++ json :: after)) =
      Convert.elements path position types (ofJsonElements table (before ++ json' :: after)) := by
  induction before generalizing types position with
  | nil =>
    obtain ⟨rest, rfl⟩ : ∃ rest, types = type :: rest := List.head?_eq_some_iff.1
      (List.head?_eq_getElem? ▸ declared)
    simp only [List.nil_append, ofJsonElements, Convert.elements, alike]
  | cons first items ih =>
    cases types with
    | nil => cases declared
    | cons other rest =>
      simp only [List.cons_append, ofJsonElements, Convert.elements, ih declared]

end

/-! ## Members -/

/-- Members that are found alike, whatever else there is. -/
theorem ofJsonMembers_of_get? {members members' : Record Json} {field : Field}
    (same : Record.get? members field.name = Record.get? members' field.name) (path : String) :
    Convert.membersOr (.option none) (ofJsonMembers table members) path [field] =
      Convert.membersOr (.option none) (ofJsonMembers table members') path [field] := by
  apply Convert.membersOr_of_get?
  rw [get?_ofJsonMembers, get?_ofJsonMembers, same]

/-- An absent member of an option type is read as a null. -/
theorem ofJsonMembers_null {members members' : Record Json} {field : Field} {item : FieldType}
    (optional : field.type = .option item) (absent : Record.get? members field.name = none)
    (null : Record.get? members' field.name = some .null) (path : String) :
    Convert.membersOr (.option none) (ofJsonMembers table members) path [field] =
      Convert.membersOr (.option none) (ofJsonMembers table members') path [field] := by
  obtain ⟨name, type⟩ := field
  obtain rfl : type = .option item := optional
  simp only [Convert.membersOr, get?_ofJsonMembers, absent, null, Option.map_none, Option.map_some,
    ofJson]
  rfl

theorem ofJsonMembers_inside {members members' : Record Json} {field : Field} {json json' : Json}
    (found : Record.get? members field.name = some json)
    (found' : Record.get? members' field.name = some json')
    (alike : ∀ path, ofJson table json field.type path = ofJson table json' field.type path)
    (path : String) :
    Convert.membersOr (.option none) (ofJsonMembers table members) path [field] =
      Convert.membersOr (.option none) (ofJsonMembers table members') path [field] := by
  simp only [Convert.membersOr, get?_ofJsonMembers, found, found', Option.map_some, alike]

/-- A member with a declared key is that of one field. -/
theorem ofJsonMembers_middle {declared : List Field} (distinct : (declared.map Field.name).Nodup)
    {field : Field} (member : field ∈ declared) {members members' : Record Json} (path : String)
    (elsewhere : ∀ key ≠ field.name, Record.get? members key = Record.get? members' key)
    (here : Convert.membersOr (.option none) (ofJsonMembers table members) path [field] =
      Convert.membersOr (.option none) (ofJsonMembers table members') path [field]) :
    Convert.membersOr (.option none) (ofJsonMembers table members) path declared =
      Convert.membersOr (.option none) (ofJsonMembers table members') path declared := by
  refine Convert.membersOr_congr fun other inside => ?_
  by_cases same : other.name = field.name
  · rwa [List.inj_on_of_nodup_map distinct inside member same]
  · exact ofJsonMembers_of_get? (elsewhere other.name same) path

/-! ## Enums -/

section

variable {name : String} {variants : List Variant}

theorem ofJson_enum_of_get? (known : table.body? name = some (.enum variants))
    {members members' : Record Json}
    (kind : Record.get? members "kind" = Record.get? members' "kind")
    (value : Record.get? members "value" = Record.get? members' "value") (path : String) :
    ofJson table (.object members) (.defined name) path =
      ofJson table (.object members') (.defined name) path := by
  simp only [ofJson_enum_object known, kindOfMembers, kind, value]

/-- Bodies that are read alike in the shape of the variant that the kind names. -/
theorem ofJson_enum_of_body (known : table.body? name = some (.enum variants))
    {members members' : Record Json} {kind : String} {position : Nat} {variant : Variant}
    (found : Record.get? members "kind" = some (.string kind))
    (found' : Record.get? members' "kind" = some (.string kind))
    (chosen : Convert.findVariant name variants kind = .ok (position, variant))
    (alike : ∀ path,
      ((Record.get? members "value").map (ofJsonBody table)).getD (payloadWithout "nothing")
          variant.shape path =
        ((Record.get? members' "value").map (ofJsonBody table)).getD (payloadWithout "nothing")
          variant.shape path) (path : String) :
    ofJson table (.object members) (.defined name) path =
      ofJson table (.object members') (.defined name) path := by
  simp only [ofJson_enum_object known, kindOfMembers, found, found', enumOfBody, chosen, bind,
    Except.bind, alike]

theorem ofJsonBody_empty (json : Json) (path : String) :
    ofJsonBody table json .empty path = .ok .empty := by
  cases json <;> rfl

end

/-! ## Edits -/

/- Follows the derivation of the edit. -/
mutual

theorem ofJson_of_edit (names : table.HasNames) {type : FieldType} {json json' : Json} :
    Json.Edit table type json json' →
      ∀ path, ofJson table json type path = ofJson table json' type path
  | .option inner, path => by
    obtain ⟨present, present'⟩ := inner.ne_null
    rw [ofJson_option present, ofJson_option present', ofJson_of_edit names inner path]
  | .vec inner, path => by
    simp only [ofJson, FieldType.core, ofJsonItems_congr (ofJson_of_edit names inner)]
  | .array inner, path => by
    simp only [ofJson, FieldType.core, List.length_append, List.length_cons,
      ofJsonItems_congr (ofJson_of_edit names inner)]
  | @Json.Edit.key _ key item _ _ json json' value inner, path => by
    have alike (path : String) : ofJsonPair table (.array [json, value]) key item path =
        ofJsonPair table (.array [json', value]) key item path := by
      rw [ofJsonPair, ofJsonPair, ofJson_of_edit names inner]
    simp only [ofJson, FieldType.core, ofJsonPairs_congr alike]
  | @Json.Edit.item _ key item _ _ json json' value inner, path => by
    have alike (path : String) : ofJsonPair table (.array [value, json]) key item path =
        ofJsonPair table (.array [value, json']) key item path := by
      rw [ofJsonPair, ofJsonPair, ofJson_of_edit names inner]
    simp only [ofJson, FieldType.core, ofJsonPairs_congr alike]
  | .struct known inner, path => by
    have distinct := (names.of_body? known).distinct
    rw [ofJson_struct known, ofJson_struct known, ofJsonMembers_of_edit names distinct inner path]
  | .enumPermuted known distinct perm, path =>
    have same := fun key => (Record.get?_of_perm distinct perm key).symm
    ofJson_enum_of_get? known (same "kind") (same "value") path
  | .enumAdded known notKind notValue, path =>
    ofJson_enum_of_get? known (Record.get?_middle (Ne.symm notKind) _ _ _).symm
      (Record.get?_middle (Ne.symm notValue) _ _ _).symm path
  | .emptyBody known found chosen empty, path => by
    have other : "kind" ≠ "value" := by decide
    refine ofJson_enum_of_body known found ((Record.get?_middle other _ _ _).trans found) chosen
      (fun path => ?_) path
    have nothing (body : Option Json) : (body.map (ofJsonBody table)).getD
        (payloadWithout "nothing") .empty path = .ok .empty := by
      cases body with
      | none => rfl
      | some json => exact ofJsonBody_empty json path
    rw [empty, nothing, nothing]
  | .body known found chosen fresh inner, path => by
    have other : "kind" ≠ "value" := by decide
    refine ofJson_enum_of_body known ((Record.get?_middle other _ _ _).trans found)
      ((Record.get?_middle other _ _ _).trans found) chosen (fun path => ?_) path
    have distinct := names.distinct_of_findVariant known chosen
    rw [Record.get?_middle_self fresh, Record.get?_middle_self fresh]
    exact ofJsonBody_of_edit names distinct inner path
termination_by structural edit => edit

theorem ofJsonMembers_of_edit (names : table.HasNames) {declared : List Field}
    (distinct : (declared.map Field.name).Nodup) {members members' : Record Json} :
    Json.MembersEdit table declared members members' → ∀ path,
      Convert.membersOr (.option none) (ofJsonMembers table members) path declared =
        Convert.membersOr (.option none) (ofJsonMembers table members') path declared
  | .permuted unique perm, path =>
    Convert.membersOr_congr fun _ _ =>
      ofJsonMembers_of_get? (Record.get?_of_perm unique perm _).symm path
  | .added undeclared, path => by
    refine Convert.membersOr_congr fun field member => ofJsonMembers_of_get? ?_ path
    refine (Record.get?_middle (fun same => undeclared ?_) _ _ _).symm
    rw [← same]
    exact List.mem_map_of_mem member
  | .null member optional absent, path => by
    refine ofJsonMembers_middle distinct member path
      (fun key other => (Record.get?_middle other _ _ _).symm) ?_
    have missing := (Record.get?_eq_none _ _).2 absent
    rw [Record.keys, List.map_append, List.mem_append, not_or] at absent
    exact ofJsonMembers_null optional missing (Record.get?_middle_self absent.1 _ _) path
  | .inside member fresh inner, path => by
    refine ofJsonMembers_middle distinct member path (fun key other => ?_) ?_
    · rw [Record.get?_middle other, Record.get?_middle other]
    · exact ofJsonMembers_inside (Record.get?_middle_self fresh _ _)
        (Record.get?_middle_self fresh _ _) (ofJson_of_edit names inner) path
termination_by structural edit => edit

theorem ofJsonBody_of_edit (names : table.HasNames) {shape : Shape}
    (distinct : (shape.members.map Field.name).Nodup) {json json' : Json} :
    Json.BodyEdit table shape json json' →
      ∀ path, ofJsonBody table json shape path = ofJsonBody table json' shape path
  | .named inner, path => by
    rw [ofJsonBody, ofJsonBody]
    exact congrArg _ (ofJsonMembers_of_edit names distinct inner path)
  | .tuple declared inner, path => by
    simp only [ofJsonBody, List.length_append, List.length_cons,
      ofJsonElements_congr declared (ofJson_of_edit names inner)]
termination_by structural edit => edit

end

end Value

namespace Table

/-- Edits of JSON, however many of them and wherever they are, change neither the value that is
read nor the error. -/
theorem ofJson_edited {types : List TypeDef} {table : Table} (accepted : ofTypes types = .ok table)
    {type : FieldType} {json json' : Json}
    (edited : EqvGen (Json.Edit table type) json json') (path : String) :
    Value.ofJson table json type path = Value.ofJson table json' type path := by
  obtain ⟨-, names⟩ := ofTypes_eq_ok accepted
  induction edited with
  | rel json json' edit => exact Value.ofJson_of_edit names edit path
  | refl json => rfl
  | symm json json' _ ih => exact ih.symm
  | trans json middle json' _ _ first second => exact first.trans second

def crates : List TypeDef :=
  [⟨"Crate", .struct [⟨"lid", .defined "Lid"⟩, ⟨"label", .option (.primitive .string)⟩]⟩,
   ⟨"Lid", .enum [⟨"Open", .empty⟩,
    ⟨"Shut", .named [⟨"locks", .primitive (.unsigned .w8)⟩]⟩]⟩]

/-- An open lid with a body, a label that is null and a note in front of them are read like the lid
alone. -/
theorem ofJson_edited_crates :
    EqvGen (Json.Edit ⟨crates⟩ (.defined "Crate"))
      (.object [("lid", .object [("kind", .string "Open")])])
      (.object [("note", .bool true),
        ("lid", .object [("kind", .string "Open"), ("value", .array [.nat 7])]),
        ("label", .null)]) ∧
    Value.ofJson ⟨crates⟩
      (.object [("note", .bool true),
        ("lid", .object [("kind", .string "Open"), ("value", .array [.nat 7])]),
        ("label", .null)]) (.defined "Crate") "Crate" =
      .ok (.struct "Crate" [("lid", .enum "Lid" "Open" 0 .empty), ("label", .option none)]) := by
  let lid : Json := .object [("kind", .string "Open"), ("value", .array [.nat 7])]
  have body : Json.Edit ⟨crates⟩ (.defined "Crate")
      (.object [("lid", .object [("kind", .string "Open")])]) (.object [("lid", lid)]) := by
    refine .struct rfl (@Json.MembersEdit.inside _ _ ⟨"lid", .defined "Lid"⟩ [] [] _ _
      List.mem_cons_self List.not_mem_nil ?_)
    exact @Json.Edit.emptyBody _ _ "Open" _ 0 ⟨"Open", .empty⟩ [("kind", .string "Open")] [] _
      rfl rfl rfl rfl
  have label : Json.Edit ⟨crates⟩ (.defined "Crate") (.object [("lid", lid)])
      (.object [("lid", lid), ("label", .null)]) :=
    .struct rfl (@Json.MembersEdit.null _ _ ⟨"label", .option (.primitive .string)⟩ _
      [("lid", lid)] [] (by decide) rfl (by decide))
  have note : Json.Edit ⟨crates⟩ (.defined "Crate") (.object [("lid", lid), ("label", .null)])
      (.object [("note", .bool true), ("lid", lid), ("label", .null)]) :=
    .struct rfl (@Json.MembersEdit.added _ _ [] _ "note" (.bool true) (by decide))
  have edited := ((EqvGen.rel _ _ body).trans _ _ _ (.rel _ _ label)).trans _ _ _ (.rel _ _ note)
  exact ⟨edited, (@ofJson_edited crates _ rfl _ _ _ edited "Crate").symm.trans rfl⟩

end Table

end WireSchema
