import WireSchema.Proofs.Schema.Loading

/-! Spellings of interface descriptions. Members of an object stand in any order and among others,
and kinds stand anywhere in a body. Whatever is spelled like a description is read as it. -/

namespace WireSchema

open Json Outcome

/-! ## Field types -/

namespace FieldType

def spell : FieldType → Json
  | primitive p => .string p.name
  | vec item => .object [("vec", item.spell)]
  | option item => .object [("option", item.spell)]
  | array item length => .object [("array", .array [item.spell, .nat length])]
  | hashMap key value => .object [("hashMap", .array [key.spell, value.spell])]
  | defined name => .object [("defined", .string name)]

theorem ofJson?_spell (type : FieldType) : ofJson? type.spell = some type := by
  induction type with
  | primitive p => rw [spell, ofJson?, Primitive.ofName?_name, Option.map_some]
  | vec item ih => rw [spell, ofJson?, ih, Option.map_some]
  | option item ih => rw [spell, ofJson?, ih, Option.map_some]
  | array item length ih =>
    rw [spell, ofJson?, ih, natural?_nat]
    rfl
  | hashMap key value keyIh valueIh =>
    rw [spell, ofJson?, keyIh, valueIh]
    rfl
  | defined name => rfl

theorem ofJson_spell (type : FieldType) : ofJson type.spell = .ok type := by
  unfold ofJson
  rw [ofJson?_spell]

end FieldType

/-! ## Fields -/

namespace Field

inductive IsSpelled (field : Field) : Json → Prop
  | object {members : Record Json} (distinct : (Record.keys members).Nodup)
      (name : Record.get? members "name" = some (.string field.name))
      (type : Record.get? members "type" = some field.type.spell) :
      IsSpelled field (.object members)

/-- A field as far as it is read once the members of some names are met. -/
def after (field : Field) (met : List String) : FieldDraft :=
  ⟨if "name" ∈ met then some field.name else none, if "type" ∈ met then some field.type else none⟩

variable {field : Field}

theorem tracks {members : Record Json}
    (name : Record.get? members "name" = some (.string field.name))
    (type : Record.get? members "type" = some field.type.spell) :
    form.Tracks members field.after where
  taken := by
    refine List.forall_mem_cons.2 ⟨?name, List.forall_mem_singleton.2 ?type⟩
    case name =>
      intro json found met fresh
      cases name.symm.trans found
      refine ⟨by simp [after, fresh], fun path => bind_eq_ok.2 ⟨field.name, rfl, ?_⟩⟩
      exact congrArg Except.ok (by simp [after])
    case type =>
      intro json found met fresh
      cases type.symm.trans found
      refine ⟨by simp [after, fresh], fun path => ?_⟩
      refine bind_eq_ok.2 ⟨field.type.spell, Load.anything_ofJson path _, ?_⟩
      simp only [FieldType.ofJson_spell]
      exact congrArg Except.ok (by simp [after])
  passed := by
    intro key apart met
    have notName : "name" ≠ key := apart _ List.mem_cons_self
    have notType : "type" ≠ key := apart _ (List.mem_cons_of_mem _ List.mem_cons_self)
    simp [after, notName, notType]

theorem load_of_isSpelled {json : Json} (spelled : field.IsSpelled json) (path : Path) :
    load path (.ofJson json) = .ok field := by
  cases spelled with
  | @object members distinct name type =>
    have hasName := Record.mem_keys_of_get? name
    have hasType := Record.mem_keys_of_get? type
    have complete : form.missing? (field.after (Record.keys members).reverse) = none := by
      simp [Form.missing?, form, after, hasName, hasType]
    refine bind_eq_ok.2 ⟨_, (tracks name type).read_object distinct complete .part, ?_⟩
    simp only [after, List.mem_reverse, if_pos hasName, if_pos hasType]
    rfl

end Field

/-! ## Variants -/

namespace Shape

/-- Payloads with a list of their own are not empty. -/
inductive IsSpelled : Shape → Option Json → Prop
  | absent : IsSpelled .empty none
  | null : IsSpelled .empty (some .null)
  | empty : IsSpelled .empty (some (.array []))
  | named {fields : List Field} {items : List Json} (nonempty : fields ≠ [])
      (each : List.Forall₂ Field.IsSpelled fields items) :
      IsSpelled (.named fields) (some (.array items))
  | tuple {types : List FieldType} (nonempty : types ≠ []) :
      IsSpelled (.tuple types) (some (.array (types.map FieldType.spell)))

theorem mapM_load {fields : List Field} {items : List Json}
    (each : List.Forall₂ Field.IsSpelled fields items) :
    (items.map Draft.ofJson).mapM (Field.load []) = .ok fields := by
  refine mapM_eq_ok.2 (List.forall₂_map_left_iff.2 ?_)
  exact each.flip.imp fun json field spelled => Field.load_of_isSpelled spelled []

theorem ofJson_named {fields : List Field} {items : List Json} (nonempty : fields ≠ [])
    (each : List.Forall₂ Field.IsSpelled fields items) :
    ofJson (.array items) = .ok (.named fields) := by
  unfold ofJson
  simp only [mapM_load each]

theorem mapM_spell (types : List FieldType) :
    (types.map FieldType.spell).mapM FieldType.ofJson? = some types := by
  induction types with
  | nil => rfl
  | cons type rest ih => simp [FieldType.ofJson?_spell, ih]

/-- Field types are not mistaken for fields. -/
theorem ofJson_tuple {types : List FieldType} (nonempty : types ≠ []) :
    ofJson (.array (types.map FieldType.spell)) = .ok (.tuple types) := by
  have failed : ∃ error, ((types.map FieldType.spell).map Draft.ofJson).mapM (Field.load []) =
      .error error := by
    cases made : ((types.map FieldType.spell).map Draft.ofJson).mapM (Field.load []) with
    | error error => exact ⟨error, rfl⟩
    | ok fields =>
      cases types with
      | nil => exact absurd rfl nonempty
      | cons type rest =>
        cases mapM_eq_ok.1 made with
        | cons first _ =>
          exact absurd first (Field.load_ne_ok_of_type (FieldType.ofJson?_spell type) [] _)
  obtain ⟨error, failed⟩ := failed
  unfold ofJson
  simp only [failed, mapM_spell]

end Shape

namespace Variant

inductive IsSpelled (variant : Variant) : Json → Prop
  | object {members : Record Json} (distinct : (Record.keys members).Nodup)
      (name : Record.get? members "name" = some (.string variant.name))
      (shape : variant.shape.IsSpelled (Record.get? members "fields")) :
      IsSpelled variant (.object members)

def after (variant : Variant) (met : List String) : VariantDraft :=
  ⟨if "name" ∈ met then some variant.name else none,
    if "fields" ∈ met then some variant.shape else none⟩

variable {variant : Variant}

theorem tracks {members : Record Json}
    (name : Record.get? members "name" = some (.string variant.name))
    (shape : variant.shape.IsSpelled (Record.get? members "fields")) :
    form.Tracks members variant.after where
  taken := by
    refine List.forall_mem_cons.2 ⟨?name, List.forall_mem_singleton.2 ?fields⟩
    case name =>
      intro json found met fresh
      cases name.symm.trans found
      refine ⟨by simp [after, fresh], fun path => bind_eq_ok.2 ⟨variant.name, rfl, ?_⟩⟩
      exact congrArg Except.ok (by simp [after])
    case fields =>
      intro json found met fresh
      refine ⟨by simp [after, fresh], fun path => ?_⟩
      rw [show Record.get? members "fields" = some json from found] at shape
      have filled : { variant.after met with shape := some variant.shape } =
          variant.after ("fields" :: met) := by simp [after]
      refine bind_eq_ok.2 ⟨json, Load.anything_ofJson path json, ?_⟩
      rw [← filled]
      generalize variant.shape = carried at shape ⊢
      cases shape with
      | null => rfl
      | empty => rfl
      | named nonempty each =>
        simp only [Shape.ofJson_named nonempty each]
        rfl
      | tuple nonempty =>
        simp only [Shape.ofJson_tuple nonempty]
        rfl
  passed := by
    intro key apart met
    have notName : "name" ≠ key := apart _ List.mem_cons_self
    have notFields : "fields" ≠ key := apart _ (List.mem_cons_of_mem _ List.mem_cons_self)
    simp [after, notName, notFields]

theorem load_of_isSpelled {json : Json} (spelled : variant.IsSpelled json) (path : Path) :
    load path (.ofJson json) = .ok variant := by
  cases spelled with
  | @object members distinct name shape =>
    have hasName := Record.mem_keys_of_get? name
    have complete : form.missing? (variant.after (Record.keys members).reverse) = none := by
      simp [Form.missing?, form, after, hasName]
    refine bind_eq_ok.2 ⟨_, (tracks name shape).read_object distinct complete .part, ?_⟩
    have filled : (variant.after (Record.keys members).reverse).shape.getD .empty =
        variant.shape := by
      by_cases hasFields : "fields" ∈ Record.keys members
      · simp [after, hasFields]
      · rw [(Record.get?_eq_none members "fields").2 hasFields] at shape
        have empty : variant.shape = .empty := by
          generalize variant.shape = carried at shape ⊢
          cases shape
          rfl
        simp [after, hasFields, empty]
    simp only [after, List.mem_reverse, if_pos hasName] at filled ⊢
    rw [filled]
    rfl

end Variant

/-! ## Bodies -/

namespace TypeBody

inductive IsSpelled : TypeBody → Json → Prop
  | struct {members : Record Json} {fields : List Field} {items : List Json}
      (distinct : (Record.keys members).Nodup)
      (kind : Record.get? members "kind" = some (.string "struct"))
      (list : Record.get? members "fields" = some (.array items))
      (each : List.Forall₂ Field.IsSpelled fields items) :
      IsSpelled (.struct fields) (.object members)
  | enum {members : Record Json} {variants : List Variant} {items : List Json}
      (distinct : (Record.keys members).Nodup)
      (kind : Record.get? members "kind" = some (.string "enum"))
      (list : Record.get? members "variants" = some (.array items))
      (each : List.Forall₂ Variant.IsSpelled variants items) :
      IsSpelled (.enum variants) (.object members)

def listAfter (name : String) (values : List α) (met : List String) : Option (List α) :=
  if name ∈ met then some values else none

theorem tracks_listForm {load : Path → Draft → Load α} {expected name : String}
    {members : Record Json} {values : List α} {items : List Json}
    (list : Record.get? members name = some (.array items))
    (each : List.Forall₂ (fun value json => ∀ path, load path (.ofJson json) = .ok value)
      values items) :
    (listForm expected name load).Tracks members (listAfter name values) where
  taken := by
    refine List.forall_mem_singleton.2 fun json found met fresh => ?_
    cases list.symm.trans found
    have vacant : name ∉ met := fresh
    refine ⟨by simp [listAfter, vacant], fun path => ?_⟩
    refine bind_eq_ok.2 ⟨values, Load.list_ofJson each path, ?_⟩
    exact congrArg Except.ok (by simp [listAfter])
  passed := by
    intro key apart met
    have notName : name ≠ key := apart _ List.mem_cons_self
    simp [listAfter, notName]

theorem read_listForm {load : Path → Draft → Load α} {expected name : String}
    {members : Record Json} {values : List α} {items : List Json} {path : Path}
    (distinct : (Record.keys members).Nodup)
    (list : Record.get? members name = some (.array items))
    (each : List.Forall₂ (fun value json => ∀ path, load path (.ofJson json) = .ok value)
      values items) :
    (listForm expected name load).read .part path (.ofJson (.object members)) none =
      .ok (some values) := by
  have hasName := Record.mem_keys_of_get? list
  have complete : (listForm expected name load).missing?
      (listAfter name values (Record.keys members).reverse) = none := by
    simp [Form.missing?, listForm, listAfter, hasName]
  have read := @Form.Tracks.read_object _ _ path _ _ (tracks_listForm list each) distinct
    complete .part
  simpa [listAfter, hasName] using read

theorem load_of_content {members : Record Json} {kind : DefinedKind} {body : TypeBody} {path : Path}
    (distinct : (Record.keys members).Nodup)
    (found : Record.get? members "kind" = some (.string kind.text))
    (content : ∀ others : Record Json, (Record.keys others).Nodup →
      (∀ key, key ≠ "kind" → Record.get? others key = Record.get? members key) →
      ofContent kind (.object others) = .ok body) :
    load none path (.ofJson (.object members)) = .ok body := by
  have once : kinds members = [.string kind.text] :=
    congrArg (List.map Prod.snd) (Record.filter_eq_singleton distinct found)
  have unique : (Record.keys (others members)).Nodup :=
    distinct.sublist (List.filter_sublist.map Prod.fst)
  have same (key : String) (other : key ≠ "kind") :
      Record.get? (others members) key = Record.get? members key := by
    rw [others, Record.get?_filter fun key => !decide (key = "kind")]
    simp [other]
  exact load_eq_ok.2
    ⟨kind, _, .object once fun _ _ => trivial, content (others members) unique same⟩

theorem load_of_isSpelled {body : TypeBody} {json : Json} (spelled : body.IsSpelled json)
    (path : Path) : load none path (.ofJson json) = .ok body := by
  cases spelled with
  | struct distinct kind list each =>
    refine @load_of_content _ .struct _ path distinct kind fun others unique same => ?_
    have read := @read_listForm _ Field.load "struct variant IdlTypeDefTy::Struct" "fields" others
      _ _ [] unique ((same "fields" (by decide)).trans list)
      (each.imp fun _ _ spelled => Field.load_of_isSpelled spelled)
    exact bind_eq_ok.2 ⟨_, read, rfl⟩
  | enum distinct kind list each =>
    refine @load_of_content _ .enum _ path distinct kind fun others unique same => ?_
    have read := @read_listForm _ Variant.load "struct variant IdlTypeDefTy::Enum" "variants" others
      _ _ [] unique ((same "variants" (by decide)).trans list)
      (each.imp fun _ _ spelled => Variant.load_of_isSpelled spelled)
    exact bind_eq_ok.2 ⟨_, read, rfl⟩

end TypeBody

/-! ## Documents -/

namespace TypeDef

inductive IsSpelled (type : TypeDef) : Json → Prop
  | object {members : Record Json} {body : Json} (distinct : (Record.keys members).Nodup)
      (name : Record.get? members "name" = some (.string type.name))
      (found : Record.get? members "type" = some body) (spelled : type.body.IsSpelled body) :
      IsSpelled type (.object members)

def after (type : TypeDef) (met : List String) : TypeDefDraft :=
  ⟨if "name" ∈ met then some type.name else none, if "type" ∈ met then some type.body else none⟩

variable {type : TypeDef}

theorem tracks {members : Record Json} {body : Json}
    (name : Record.get? members "name" = some (.string type.name))
    (described : Record.get? members "type" = some body) (spelled : type.body.IsSpelled body) :
    (form none).Tracks members type.after where
  taken := by
    refine List.forall_mem_cons.2 ⟨?name, List.forall_mem_singleton.2 ?body⟩
    case name =>
      intro json found met fresh
      cases name.symm.trans found
      refine ⟨by simp [after, fresh], fun path => bind_eq_ok.2 ⟨type.name, rfl, ?_⟩⟩
      exact congrArg Except.ok (by simp [after])
    case body =>
      intro json found met fresh
      cases described.symm.trans found
      refine ⟨by simp [after, fresh], fun path => ?_⟩
      refine bind_eq_ok.2 ⟨type.body, TypeBody.load_of_isSpelled spelled path, ?_⟩
      exact congrArg Except.ok (by simp [after])
  passed := by
    intro key apart met
    have notName : "name" ≠ key := apart _ List.mem_cons_self
    have notType : "type" ≠ key := apart _ (List.mem_cons_of_mem _ List.mem_cons_self)
    simp [after, notName, notType]

theorem load_of_isSpelled {origin : Origin} {json : Json} (spelled : type.IsSpelled json)
    (path : Path) : load origin none path (.ofJson json) = .ok type := by
  cases spelled with
  | @object members body distinct name found spelled =>
    have hasName := Record.mem_keys_of_get? name
    have hasType := Record.mem_keys_of_get? found
    have complete : (form none).missing? (type.after (Record.keys members).reverse) = none := by
      simp [Form.missing?, form, after, hasName, hasType]
    refine bind_eq_ok.2 ⟨_, (tracks name found spelled).read_object distinct complete origin, ?_⟩
    simp only [after, List.mem_reverse, if_pos hasName, if_pos hasType]
    rfl

end TypeDef

namespace Idl

inductive IsOptionalText : Option String → Option Json → Prop
  | absent : IsOptionalText none none
  | null : IsOptionalText none (some .null)
  | text (s : String) : IsOptionalText (some s) (some (.string s))

inductive IsSpelled (idl : Idl) : Json → Prop
  | object {members : Record Json} {items : List Json} (distinct : (Record.keys members).Nodup)
      (version : IsOptionalText idl.version (Record.get? members "version"))
      (name : IsOptionalText idl.name (Record.get? members "name"))
      (types : Record.get? members "types" = some (.array items))
      (each : List.Forall₂ TypeDef.IsSpelled idl.types items) :
      IsSpelled idl (.object members)

def after (idl : Idl) (met : List String) : IdlDraft :=
  ⟨if "version" ∈ met then some idl.version else none,
    if "name" ∈ met then some idl.name else none, if "types" ∈ met then some idl.types else none⟩

variable {idl : Idl}

theorem optionalString_ofJson {text : Option String} {json : Json}
    (spelled : IsOptionalText text (some json)) (path : Path) :
    Load.optionalString path (.ofJson json) = .ok text := by
  cases spelled <;> rfl

theorem tracks {members : Record Json} {items : List Json} {origin : Origin}
    (version : IsOptionalText idl.version (Record.get? members "version"))
    (name : IsOptionalText idl.name (Record.get? members "name"))
    (types : Record.get? members "types" = some (.array items))
    (each : List.Forall₂ TypeDef.IsSpelled idl.types items) :
    (form origin none).Tracks members idl.after where
  taken := by
    refine List.forall_mem_cons.2 ⟨?version, List.forall_mem_cons.2 ⟨?name,
      List.forall_mem_singleton.2 ?types⟩⟩
    case version =>
      intro json found met fresh
      rw [show Record.get? members "version" = some json from found] at version
      refine ⟨by simp [after, fresh], fun path => ?_⟩
      refine bind_eq_ok.2 ⟨idl.version, optionalString_ofJson version path, ?_⟩
      exact congrArg Except.ok (by simp [after])
    case name =>
      intro json found met fresh
      rw [show Record.get? members "name" = some json from found] at name
      refine ⟨by simp [after, fresh], fun path => ?_⟩
      refine bind_eq_ok.2 ⟨idl.name, optionalString_ofJson name path, ?_⟩
      exact congrArg Except.ok (by simp [after])
    case types =>
      intro json found met fresh
      cases types.symm.trans found
      have loaded := each.imp fun type json spelled =>
        @TypeDef.load_of_isSpelled type origin json spelled
      refine ⟨by simp [after, fresh], fun path => ?_⟩
      refine bind_eq_ok.2 ⟨idl.types, Load.list_ofJson loaded path, ?_⟩
      exact congrArg Except.ok (by simp [after])
  passed := by
    intro key apart met
    have notVersion : "version" ≠ key := apart _ List.mem_cons_self
    have notName : "name" ≠ key := apart _ (List.mem_cons_of_mem _ List.mem_cons_self)
    have notTypes : "types" ≠ key :=
      apart _ (List.mem_cons_of_mem _ (List.mem_cons_of_mem _ List.mem_cons_self))
    simp [after, notVersion, notName, notTypes]

theorem getD_of_isOptionalText {members : Record Json} {key : String} {text : Option String}
    (spelled : IsOptionalText text (Record.get? members key)) :
    (if key ∈ Record.keys members then some text else none).getD none = text := by
  split
  next => rfl
  next absent =>
    rw [(Record.get?_eq_none members key).2 absent] at spelled
    cases spelled
    rfl

theorem ofJson_of_isSpelled {json : Json} (spelled : idl.IsSpelled json) :
    ofJson json = .ok idl := by
  cases spelled with
  | @object members items distinct version name types each =>
    have hasTypes := Record.mem_keys_of_get? types
    have complete : (form .value none).missing? (idl.after (Record.keys members).reverse) = none :=
      by simp [Form.missing?, form]
    have read := @Form.Tracks.read_object _ _ [] _ _ (tracks version name types each) distinct
      complete .value
    have start : idl.after [] = ⟨none, none, none⟩ := rfl
    rw [start] at read
    rw [ofJson, load, read]
    simp only [after, List.mem_reverse, if_pos hasTypes, getD_of_isOptionalText version,
      getD_of_isOptionalText name]
    rfl

end Idl

/-! ## One spelling for each -/

def Field.spell (field : Field) : Json :=
  .object [("name", .string field.name), ("type", field.type.spell)]

def Shape.spell? : Shape → Option Json
  | empty => none
  | named fields => some (.array (fields.map Field.spell))
  | tuple types => some (.array (types.map FieldType.spell))

def Variant.spell (variant : Variant) : Json :=
  .object (("name", .string variant.name) ::
    (variant.shape.spell?.map fun json => ("fields", json)).toList)

def TypeBody.spell : TypeBody → Json
  | struct fields =>
    .object [("kind", .string "struct"), ("fields", .array (fields.map Field.spell))]
  | enum variants =>
    .object [("kind", .string "enum"), ("variants", .array (variants.map Variant.spell))]

def TypeDef.spell (type : TypeDef) : Json :=
  .object [("name", .string type.name), ("type", type.body.spell)]

def Idl.spell (idl : Idl) : Json :=
  .object ((idl.version.map fun s => ("version", .string s)).toList ++
    (idl.name.map fun s => ("name", .string s)).toList ++
    [("types", .array (idl.types.map TypeDef.spell))])

theorem Field.isSpelled_spell (field : Field) : field.IsSpelled field.spell :=
  .object (by simp [Record.keys]) rfl rfl

def Shape.IsFilled (shape : Shape) : Prop :=
  shape ≠ .named [] ∧ shape ≠ .tuple []

theorem forall₂_spell {relation : α → Json → Prop} {spell : α → Json} {values : List α}
    (each : ∀ value ∈ values, relation value (spell value)) :
    List.Forall₂ relation values (values.map spell) :=
  List.forall₂_map_right_iff.2 (List.forall₂_same.2 each)

theorem Shape.isSpelled_spell {shape : Shape} (filled : shape.IsFilled) :
    shape.IsSpelled shape.spell? := by
  cases shape with
  | empty => exact .absent
  | named fields =>
    refine .named (fun none => filled.1 (congrArg named none)) ?_
    exact forall₂_spell fun field _ => field.isSpelled_spell
  | tuple types => exact .tuple fun none => filled.2 (congrArg tuple none)

theorem Variant.isSpelled_spell {variant : Variant} (filled : variant.shape.IsFilled) :
    variant.IsSpelled variant.spell := by
  have shape := Shape.isSpelled_spell filled
  refine .object ?_ rfl ?_
  · cases variant.shape.spell? <;> simp [Record.keys]
  · have found : Record.get? (("name", .string variant.name) ::
        (variant.shape.spell?.map fun json => ("fields", json)).toList) "fields" =
          variant.shape.spell? := by
      cases variant.shape.spell? <;> rfl
    rwa [found]

def TypeBody.IsFilled (body : TypeBody) : Prop :=
  ∀ variants, body = .enum variants → ∀ variant ∈ variants, variant.shape.IsFilled

theorem TypeBody.isSpelled_spell {body : TypeBody} (filled : body.IsFilled) :
    body.IsSpelled body.spell := by
  cases body with
  | struct fields =>
    exact .struct (by simp [Record.keys]) rfl rfl
      (forall₂_spell fun field _ => field.isSpelled_spell)
  | enum variants =>
    exact .enum (by simp [Record.keys]) rfl rfl
      (forall₂_spell fun variant member =>
        Variant.isSpelled_spell (filled variants rfl variant member))

theorem TypeDef.isSpelled_spell {type : TypeDef} (filled : type.body.IsFilled) :
    type.IsSpelled type.spell :=
  .object (by simp [Record.keys]) rfl rfl (TypeBody.isSpelled_spell filled)

namespace Idl

theorem isSpelled_spell {idl : Idl} (filled : ∀ type ∈ idl.types, type.body.IsFilled) :
    idl.IsSpelled idl.spell := by
  have each := forall₂_spell fun type member => TypeDef.isSpelled_spell (filled type member)
  obtain ⟨version, name, types⟩ := idl
  cases version with
  | none =>
    cases name with
    | none => exact .object (by simp [Record.keys]) .absent .absent rfl each
    | some n => exact .object (by simp [Record.keys]) .absent (.text n) rfl each
  | some v =>
    cases name with
    | none => exact .object (by simp [Record.keys]) (.text v) .absent rfl each
    | some n => exact .object (by simp [Record.keys]) (.text v) (.text n) rfl each

/-- Every description can be spelled, and whatever is spelled like it is read back as it. -/
theorem ofJson_spelled {idl : Idl} (filled : ∀ type ∈ idl.types, type.body.IsFilled) :
    idl.IsSpelled idl.spell ∧ ∀ json, idl.IsSpelled json → ofJson json = .ok idl :=
  ⟨isSpelled_spell filled, fun _ => ofJson_of_isSpelled⟩

def shapes : Idl :=
  ⟨none, some "demo", [
    ⟨"State", .struct [⟨"grid", .array (.primitive (.unsigned .w8)) 4⟩]⟩,
    ⟨"Shape", .enum [⟨"Circle", .named [⟨"radius", .primitive .double⟩]⟩, ⟨"Unit", .empty⟩,
      ⟨"Pair", .tuple [.primitive (.unsigned .w8), .defined "State"]⟩]⟩]⟩

def shuffledShapes : Json :=
  .object [
    ("instructions", .array []),
    ("types", .array [
      .object [
        ("type", .object [
          ("fields", .array [.object [
            ("type", .object [("array", .array [.string "u8", .nat 4])]),
            ("docs", .null), ("name", .string "grid")]]),
          ("kind", .string "struct")]),
        ("name", .string "State")],
      .object [
        ("name", .string "Shape"),
        ("docs", .array []),
        ("type", .object [
          ("variants", .array [
            .object [
              ("fields", .array [.object [("name", .string "radius"), ("type", .string "f64")]]),
              ("name", .string "Circle")],
            .object [("name", .string "Unit"), ("index", .nat 1)],
            .object [
              ("name", .string "Pair"),
              ("fields", .array [.string "u8", .object [("defined", .string "State")]])]]),
          ("kind", .string "enum")])]]),
    ("name", .string "demo")]

theorem ofJson_spelled_shapes :
    shapes.IsSpelled shuffledShapes ∧ ofJson shuffledShapes = .ok shapes := by
  have filled : ∀ type ∈ shapes.types, type.body.IsFilled := by
    refine List.forall_mem_cons.2 ⟨by rintro _ ⟨⟩, List.forall_mem_singleton.2 ?_⟩
    rintro _ ⟨⟩
    simp [Shape.IsFilled]
  have spelled : shapes.IsSpelled shuffledShapes := by
    refine .object (by decide) .absent (.text "demo") rfl (.cons ?state (.cons ?shape .nil))
    case state =>
      refine .object (by decide) rfl rfl (.struct (by decide) rfl rfl (.cons ?_ .nil))
      exact .object (by decide) rfl rfl
    case shape =>
      refine .object (by decide) rfl rfl
        (.enum (by decide) rfl rfl (.cons ?circle (.cons ?unit (.cons ?pair .nil))))
      case circle =>
        exact .object (by decide) rfl
          (.named (by simp) (.cons (.object (by decide) rfl rfl) .nil))
      case unit => exact .object (by decide) rfl .absent
      case pair => exact .object (by decide) rfl (.tuple (by simp))
  exact ⟨spelled, (ofJson_spelled filled).2 _ spelled⟩

end Idl

end WireSchema
