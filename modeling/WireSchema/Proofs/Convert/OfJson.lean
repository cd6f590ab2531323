import WireSchema.Convert.OfJson
import WireSchema.Proofs.Convert.Belongs

/-! Values of JSON. The conversion is followed once, for any property that goes from the parts of
values to the values; that they belong to their types is such a property. -/

namespace WireSchema

open Outcome

namespace Convert

def GivesOr (absent : β) (converters : Record (Converter β)) (path : String) (field : Field)
    (entry : String × β) : Prop :=
  entry.1 = field.name ∧
    ((∃ convert, Record.get? converters field.name = some convert ∧
        convert field.type (atField path field.name) = .ok entry.2) ∨
      ((∃ item, field.type = .option item) ∧ entry.2 = absent))

theorem givesOr_of_membersOr {absent : β} {converters : Record (Converter β)} {path : String}
    {declared : List Field} {entries : List (String × β)}
    (made : membersOr absent converters path declared = .ok entries) :
    List.Forall₂ (GivesOr absent converters path) declared entries := by
  induction declared generalizing entries with
  | nil =>
    cases made
    exact .nil
  | cons field rest ih =>
    rw [membersOr] at made
    split at made
    next _ _ convert found =>
      obtain ⟨value, first, tail⟩ := bind_eq_ok.1 made
      obtain ⟨others, restMade, done⟩ := bind_eq_ok.1 tail
      rw [← pure_eq_ok.1 done]
      exact .cons ⟨rfl, .inl ⟨convert, found, first⟩⟩ (ih restMade)
    next item found option =>
      obtain ⟨others, restMade, done⟩ := bind_eq_ok.1 made
      rw [← pure_eq_ok.1 done]
      exact .cons ⟨rfl, .inr ⟨⟨item, option⟩, rfl⟩⟩ (ih restMade)
    next => cases made

theorem bounded_eq_ok {fits : α → Bool} {error : ConvertError} {found value : α} :
    (if fits found then .ok found else .error error : Convert α) = .ok value ↔
      found = value ∧ fits value = true := by
  constructor
  · intro made
    split at made
    next passes => exact Except.ok.inj made ▸ ⟨rfl, passes⟩
    next => cases made
  · rintro ⟨rfl, passes⟩
    exact if_pos passes

theorem readNumeral_eq_ok {scan : String → Option α} {fits : α → Bool} {text : String} {n : α} :
    readNumeral scan fits text = .ok n ↔ scan text = some n ∧ fits n = true := by
  unfold readNumeral
  cases scan text with
  | none => simp [notNumeral, mismatch]
  | some m => rw [Option.some.injEq]; exact bounded_eq_ok

theorem jsonAccess_eq_ok {path expected : String} {json : Json} {found : Option α} {value : α} :
    jsonAccess path expected json found = .ok value ↔ found = some value := by
  cases found with
  | none => simp [jsonAccess, jsonMismatch, mismatch]
  | some value' => simp [jsonAccess]

theorem jsonNumeral_eq_ok {p : Primitive} {read : String → Convert α}
    {number? : Json → Option α} {path : String} {json : Json} {n : α} :
    jsonNumeral p read number? path json = .ok n ↔
      if p.isWideInteger then ∃ text, json.string? = some text ∧ read text = .ok n
      else number? json = some n := by
  unfold jsonNumeral
  split
  next => simp only [bind_eq_ok, jsonAccess_eq_ok, within, mapError_eq_ok]
  next => exact jsonAccess_eq_ok

/-- An integer is one that is found and is in range. -/
theorem jsonInteger_eq_ok [ToString α] {p : Primitive} {fits : α → Bool}
    {read : String → Convert α} {number? : Json → Option α} {path : String} {json : Json} {n : α} :
    jsonInteger p fits read number? path json = .ok n ↔
      jsonNumeral p read number? path json = .ok n ∧ fits n = true := by
  rw [jsonInteger, bind_eq_ok]
  constructor
  · rintro ⟨m, here, passes⟩
    obtain ⟨rfl, bound⟩ := bounded_eq_ok.1 passes
    exact ⟨here, bound⟩
  · rintro ⟨here, bound⟩
    exact ⟨n, here, if_pos bound⟩

end Convert

namespace Value

variable {table : Table}

theorem ofJsonMembers_eq_map (members : Record Json) :
    ofJsonMembers table members = members.map fun entry => (entry.1, ofJson table entry.2) :=
  eq_map_of_cons rfl (fun _ _ => rfl) members

theorem get?_ofJsonMembers (members : Record Json) (key : String) :
    Record.get? (ofJsonMembers table members) key =
      (Record.get? members key).map (ofJson table) := by
  rw [ofJsonMembers_eq_map, Record.get?_map]

theorem ofJsonBodies_eq_map (members : Record Json) :
    ofJsonBodies table members = members.map fun entry => (entry.1, ofJsonBody table entry.2) :=
  eq_map_of_cons rfl (fun _ _ => rfl) members

theorem get?_ofJsonBodies (members : Record Json) (key : String) :
    Record.get? (ofJsonBodies table members) key =
      (Record.get? members key).map (ofJsonBody table) := by
  rw [ofJsonBodies_eq_map, Record.get?_map]

theorem belongs_of_valueOfJson {p : Primitive} {json : Json} {path : String} {value : Value}
    (made : p.valueOfJson json path = .ok value) : Belongs table value (.primitive p) := by
  cases p with
  | bool =>
    obtain ⟨b, -, rfl⟩ := map_eq_ok.1 made
    exact ⟨_, .bool b⟩
  | unsigned width =>
    obtain ⟨n, read, rfl⟩ := map_eq_ok.1 made
    exact ⟨_, .unsigned (Convert.jsonInteger_eq_ok.1 read).2⟩
  | signed width =>
    obtain ⟨i, read, rfl⟩ := map_eq_ok.1 made
    exact ⟨_, .signed (Convert.jsonInteger_eq_ok.1 read).2⟩
  | single =>
    obtain ⟨x, -, rfl⟩ := map_eq_ok.1 made
    exact ⟨_, .single (.inr x.toSingle_toSingle)⟩
  | double =>
    obtain ⟨x, -, rfl⟩ := map_eq_ok.1 made
    exact ⟨_, .double x⟩
  | string =>
    obtain ⟨s, -, rfl⟩ := map_eq_ok.1 made
    exact ⟨_, .string s⟩
  | bytes =>
    obtain ⟨items, -, rest⟩ := bind_eq_ok.1 made
    obtain ⟨b, -, done⟩ := bind_eq_ok.1 rest
    rw [← pure_eq_ok.1 done]
    exact ⟨_, .bytes b⟩
  | publicKey =>
    obtain ⟨text, -, rest⟩ := bind_eq_ok.1 made
    obtain ⟨key, -, done⟩ := bind_eq_ok.1 rest
    rw [← pure_eq_ok.1 done]
    exact ⟨_, .publicKey key⟩

/-! ## What is kept -/

def HoldsMember (holds : Value → FieldType → Prop) (field : Field) (entry : String × Value) :
    Prop :=
  entry.1 = field.name ∧ holds entry.2 field.type

def HoldsPayload (holds : Value → FieldType → Prop) (payload : Payload Value) (shape : Shape) :
    Prop :=
  ∃ entries, List.Forall₂ (HoldsMember holds) shape.members entries ∧ payload = carry shape entries

/-- A property of values at types that goes from parts to what is read of them. As `null` is the
absent option, it is never put in a present one. -/
structure IsKept (table : Table) (holds : Value → FieldType → Prop) : Prop where
  primitive {p : Primitive} {json : Json} {path : String} {value : Value} :
    p.valueOfJson json path = .ok value → holds value (.primitive p)
  absent (item : FieldType) : holds (.option none) (.option item)
  filled {value : Value} {item : FieldType} : value ≠ .option none → holds value item →
    holds (.option (some value)) (.option item)
  vec {items : List Value} {item : FieldType} : (∀ value ∈ items, holds value item) →
    holds (.list items) (.vec item)
  array {items : List Value} {item : FieldType} {length : Nat} : items.length = length →
    (∀ value ∈ items, holds value item) → holds (.list items) (.array item length)
  map {entries : List (Value × Value)} {key item : FieldType} :
    (∀ entry ∈ entries, holds entry.1 key ∧ holds entry.2 item) →
    holds (.map entries) (.hashMap key item)
  struct {name : String} {declared : List Field} {entries : Record Value} :
    table.body? name = some (.struct declared) →
    List.Forall₂ (HoldsMember holds) declared entries → holds (.struct name entries) (.defined name)
  enum {name kind : String} {variants : List Variant} {position : Nat} {variant : Variant}
    {payload : Payload Value} : table.body? name = some (.enum variants) →
    Convert.findVariant name variants kind = .ok (position, variant) →
    HoldsPayload holds payload variant.shape →
    holds (.enum name kind (Convert.tagOf position) payload) (.defined name)

theorem isKept_belongs (names : table.HasNames) : IsKept table (Belongs table) where
  primitive := belongs_of_valueOfJson
  absent := belongs_none
  filled _ inner := belongs_some inner
  vec := belongs_vec
  array := belongs_array
  map := belongs_map
  struct known each := belongs_struct known (names.of_body? known).distinct each
  enum := belongs_enum names

/-! ## Following the conversion -/

section

variable {holds : Value → FieldType → Prop}

/-- What is found at the core of a type has the property once the options are put around it. -/
theorem IsKept.wrapped (kept : IsKept table holds) {type : FieldType} {inner : Value}
    (present : inner ≠ .option none) (held : holds inner type.core) :
    holds (wrapped type.optionDepth inner) type := by
  suffices Value.wrapped type.optionDepth inner ≠ .option none ∧
      holds (Value.wrapped type.optionDepth inner) type from this.2
  induction type with
  | option item ih =>
    obtain ⟨there, below⟩ := ih held
    exact ⟨by simp [Value.wrapped, FieldType.optionDepth], kept.filled there below⟩
  | _ => exact ⟨present, held⟩

def IsHeld (holds : Value → FieldType → Prop) (value : Value) (type : FieldType) : Prop :=
  value ≠ .option none ∧ holds value type

theorem IsKept.of_core (kept : IsKept table holds) {type : FieldType} {result : Convert Value}
    {value : Value} (sound : ∀ inner, result = .ok inner → IsHeld holds inner type.core)
    (made : Value.wrapped type.optionDepth <$> result = .ok value) : holds value type := by
  obtain ⟨inner, found, rfl⟩ := map_eq_ok.1 made
  obtain ⟨present, held⟩ := sound inner found
  exact kept.wrapped present held

theorem IsKept.of_ofJsonLeaf (kept : IsKept table holds) {json : Json} {type : FieldType}
    {path : String} {value : Value} (made : ofJsonLeaf table json type path = .ok value) :
    IsHeld holds value type := by
  cases type with
  | primitive p =>
    refine ⟨?_, kept.primitive made⟩
    obtain ⟨tree, has⟩ : Belongs table value (.primitive p) := belongs_of_valueOfJson made
    rintro rfl
    cases has
  | defined name =>
    obtain ⟨body, -, rest⟩ := bind_eq_ok.1 made
    cases body with
    | struct declared => cases rest
    | enum variants => cases rest
  | _ => cases made

theorem holdsPayload_of_payloadWithout (found : String) {shape : Shape} (path : String)
    {payload : Payload Value} (made : payloadWithout found shape path = .ok payload) :
    HoldsPayload holds payload shape := by
  cases shape with
  | empty =>
    cases made
    exact ⟨[], .nil, rfl⟩
  | named declared => cases made
  | tuple types => cases made

def OnlyGives (table : Table) (holds : Value → FieldType → Prop) (json : Json) : Prop :=
  ∀ type path value, ofJson table json type path = .ok value → holds value type

def OnlyCarriesHeld (holds : Value → FieldType → Prop) (convert : PayloadConverter) : Prop :=
  ∀ shape path payload, convert shape path = .ok payload → HoldsPayload holds payload shape

theorem IsKept.of_membersOr (kept : IsKept table holds) {members : Record Json} {path : String}
    {declared : List Field} {entries : Record Value}
    (sound : ∀ entry ∈ members, OnlyGives table holds entry.2)
    (made : Convert.membersOr (.option none) (ofJsonMembers table members) path declared =
      .ok entries) :
    List.Forall₂ (HoldsMember holds) declared entries := by
  refine (Convert.givesOr_of_membersOr made).imp fun field entry gives => ?_
  obtain ⟨named, ⟨convert, found, converted⟩ | ⟨⟨item, option⟩, absent⟩⟩ := gives
  · rw [get?_ofJsonMembers, Option.map_eq_some_iff] at found
    obtain ⟨json, here, rfl⟩ := found
    exact ⟨named, sound _ (Record.mem_of_get? here) _ _ _ converted⟩
  · refine ⟨named, ?_⟩
    rw [absent, option]
    exact kept.absent item

theorem holdsMember_of_elements {items : List Json} {path : String} {position : Nat}
    {types : List FieldType} {values : List Value}
    (sound : ∀ json ∈ items, OnlyGives table holds json) (sized : types.length = items.length)
    (made : Convert.elements path position types (ofJsonElements table items) = .ok values) :
    List.Forall₂ (HoldsMember holds) (elementsFrom position types)
      (keyedFrom position values) := by
  induction types generalizing position items values with
  | nil =>
    cases items with
    | nil =>
      cases made
      exact .nil
    | cons item others => cases sized
  | cons type rest ih =>
    cases items with
    | nil => cases sized
    | cons item others =>
      obtain ⟨value, first, tail⟩ := bind_eq_ok.1 made
      obtain ⟨remaining, restMade, done⟩ := bind_eq_ok.1 tail
      rw [← pure_eq_ok.1 done]
      obtain ⟨itemSound, restSound⟩ := List.forall_mem_cons.1 sound
      have below := ih restSound (Nat.succ.inj sized) restMade
      exact .cons ⟨rfl, itemSound _ _ _ first⟩ below

theorem IsKept.of_enumOfBody (kept : IsKept table holds) {name kind path : String}
    {variants : List Variant} {body : Option PayloadConverter} {value : Value}
    (known : table.body? name = some (.enum variants))
    (sound : ∀ convert, body = some convert → OnlyCarriesHeld holds convert)
    (made : enumOfBody name variants kind body path = .ok value) :
    IsHeld holds value (.defined name) := by
  obtain ⟨⟨position, variant⟩, chosen, rest⟩ := bind_eq_ok.1 made
  obtain ⟨payload, carried, done⟩ := bind_eq_ok.1 rest
  rw [← pure_eq_ok.1 done]
  refine ⟨by simp, kept.enum known chosen ?_⟩
  cases body with
  | none => exact holdsPayload_of_payloadWithout _ _ carried
  | some convert => exact sound convert rfl _ _ _ carried

/- Follows the recursion of the conversion. A member of an object may be one of a struct and the
payload of a variant. -/
mutual

theorem holds_of_ofJson (kept : IsKept table holds) : (json : Json) → OnlyGives table holds json
  | .null, type, path, value, made => by
    cases type with
    | option item =>
      cases made
      exact kept.absent item
    | _ =>
      refine (?_ : IsHeld holds value _).2
      exact kept.of_ofJsonLeaf made
  | .array items, type, path, value, made => by
    refine kept.of_core (fun inner found => ?_) made
    generalize type.core = core at found
    cases core with
    | vec item =>
      obtain ⟨values, itemsMade, rfl⟩ := map_eq_ok.1 found
      exact ⟨by simp, kept.vec (hold_of_ofJsonItems kept items itemsMade).2⟩
    | array item length =>
      simp only at found
      split at found
      next sized =>
        obtain ⟨values, itemsMade, rfl⟩ := map_eq_ok.1 found
        obtain ⟨counted, each⟩ := hold_of_ofJsonItems kept items itemsMade
        exact ⟨by simp, kept.array (counted.trans sized) each⟩
      next => cases found
    | hashMap key item =>
      obtain ⟨pairs, pairsMade, rfl⟩ := map_eq_ok.1 found
      exact ⟨by simp, kept.map (hold_of_ofJsonPairs kept items pairsMade)⟩
    | _ => exact kept.of_ofJsonLeaf found
  | .object members, type, path, value, made => by
    refine kept.of_core (fun inner found => ?_) made
    generalize type.core = core at found
    cases core with
    | defined name =>
      obtain ⟨body, defined, rest⟩ := bind_eq_ok.1 found
      have known := Convert.definition_eq_ok.1 defined
      cases body with
      | struct declared =>
        obtain ⟨entries, membersMade, done⟩ := bind_eq_ok.1 rest
        rw [← pure_eq_ok.1 done]
        have sound := fun entry member => (hold_of_jsonMembers kept members entry member).1
        exact ⟨by simp, kept.struct known (kept.of_membersOr sound membersMade)⟩
      | enum variants =>
        obtain ⟨kind, -, enumMade⟩ := bind_eq_ok.1 rest
        refine kept.of_enumOfBody known (fun convert body => ?_) enumMade
        rw [get?_ofJsonBodies, Option.map_eq_some_iff] at body
        obtain ⟨json, here, rfl⟩ := body
        exact (hold_of_jsonMembers kept members _ (Record.mem_of_get? here)).2
    | _ => exact kept.of_ofJsonLeaf found
  | .bool _, _, _, _, made => kept.of_core (fun _ => kept.of_ofJsonLeaf) made
  | .number _, _, _, _, made => kept.of_core (fun _ => kept.of_ofJsonLeaf) made
  | .string _, _, _, _, made => kept.of_core (fun _ => kept.of_ofJsonLeaf) made
termination_by structural json => json

theorem hold_of_ofJsonItems (kept : IsKept table holds) : (items : List Json) →
    ∀ {type path position values}, ofJsonItems table items type path position = .ok values →
      values.length = items.length ∧ ∀ value ∈ values, holds value type
  | [], _, _, _, _, made => by
    cases made
    simp
  | json :: rest, _, _, _, _, made => by
    obtain ⟨value, first, tail⟩ := bind_eq_ok.1 made
    obtain ⟨others, restMade, done⟩ := bind_eq_ok.1 tail
    obtain ⟨counted, each⟩ := hold_of_ofJsonItems kept rest restMade
    rw [← pure_eq_ok.1 done]
    exact ⟨congrArg Nat.succ counted,
      List.forall_mem_cons.2 ⟨holds_of_ofJson kept json _ _ _ first, each⟩⟩
termination_by structural items => items

theorem hold_of_ofJsonPairs (kept : IsKept table holds) : (items : List Json) →
    ∀ {key item path position pairs}, ofJsonPairs table items key item path position = .ok pairs →
      ∀ pair ∈ pairs, holds pair.1 key ∧ holds pair.2 item
  | [], _, _, _, _, _, made => by
    cases made
    simp
  | json :: rest, _, _, _, _, _, made => by
    obtain ⟨pair, first, tail⟩ := bind_eq_ok.1 made
    obtain ⟨others, restMade, done⟩ := bind_eq_ok.1 tail
    rw [← pure_eq_ok.1 done]
    exact List.forall_mem_cons.2
      ⟨hold_of_ofJsonPair kept json first, hold_of_ofJsonPairs kept rest restMade⟩
termination_by structural items => items

theorem hold_of_ofJsonPair (kept : IsKept table holds) : (json : Json) →
    ∀ {key item path pair}, ofJsonPair table json key item path = .ok pair →
      holds pair.1 key ∧ holds pair.2 item
  | .array [keyJson, itemJson], _, _, _, _, made => by
    obtain ⟨key, keyMade, rest⟩ := bind_eq_ok.1 made
    obtain ⟨item, itemMade, done⟩ := bind_eq_ok.1 rest
    rw [← pure_eq_ok.1 done]
    exact ⟨holds_of_ofJson kept keyJson _ _ _ keyMade,
      holds_of_ofJson kept itemJson _ _ _ itemMade⟩
  | .array [], _, _, _, _, made => by cases made
  | .array [_], _, _, _, _, made => by cases made
  | .array (_ :: _ :: _ :: _), _, _, _, _, made => by cases made
  | .null, _, _, _, _, made => by cases made
  | .bool _, _, _, _, _, made => by cases made
  | .number _, _, _, _, _, made => by cases made
  | .string _, _, _, _, _, made => by cases made
  | .object _, _, _, _, _, made => by cases made
termination_by structural json => json

theorem hold_of_jsonMembers (kept : IsKept table holds) : (members : List (String × Json)) →
    ∀ entry ∈ members, OnlyGives table holds entry.2 ∧
      OnlyCarriesHeld holds (ofJsonBody table entry.2)
  | [] => by simp
  | (_, json) :: rest =>
    List.forall_mem_cons.2 ⟨⟨holds_of_ofJson kept json, holds_of_ofJsonBody kept json⟩,
      hold_of_jsonMembers kept rest⟩
termination_by structural members => members

theorem hold_of_jsonElements (kept : IsKept table holds) : (items : List Json) →
    ∀ json ∈ items, OnlyGives table holds json
  | [] => by simp
  | json :: rest =>
    List.forall_mem_cons.2 ⟨holds_of_ofJson kept json, hold_of_jsonElements kept rest⟩
termination_by structural items => items

theorem holds_of_ofJsonBody (kept : IsKept table holds) : (json : Json) →
    OnlyCarriesHeld holds (ofJsonBody table json)
  | .object members, shape, path, payload, made => by
    cases shape with
    | named declared =>
      obtain ⟨entries, membersMade, rfl⟩ := map_eq_ok.1 made
      have sound := fun entry member => (hold_of_jsonMembers kept members entry member).1
      exact ⟨entries, kept.of_membersOr sound membersMade, rfl⟩
    | _ => exact holdsPayload_of_payloadWithout "object" path made
  | .array items, shape, path, payload, made => by
    cases shape with
    | tuple types =>
      obtain ⟨sized, rest⟩ := then_eq_ok.1 made
      obtain ⟨values, elementsMade, done⟩ := bind_eq_ok.1 rest
      rw [← pure_eq_ok.1 done]
      have each := holdsMember_of_elements (hold_of_jsonElements kept items)
        (Convert.checkArity_eq_ok.1 sized) elementsMade
      refine ⟨keyedFrom 0 values, members_tuple types ▸ each, ?_⟩
      rw [carry, map_snd_keyedFrom]
    | _ => exact holdsPayload_of_payloadWithout "array" path made
  | .null, _, _, _, made => holdsPayload_of_payloadWithout _ _ made
  | .bool _, _, _, _, made => holdsPayload_of_payloadWithout _ _ made
  | .number _, _, _, _, made => holdsPayload_of_payloadWithout _ _ made
  | .string _, _, _, _, made => holdsPayload_of_payloadWithout _ _ made
termination_by structural json => json

end

end

theorem belongs_of_ofJson (names : table.HasNames) {json : Json} {type : FieldType}
    {path : String} {value : Value} (made : ofJson table json type path = .ok value) :
    Belongs table value type :=
  holds_of_ofJson (isKept_belongs names) json type path value made

end Value

end WireSchema
