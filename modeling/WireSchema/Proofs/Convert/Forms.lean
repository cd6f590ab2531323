import WireSchema.Proofs.Convert.Encodes

/-! The forms of values. A value has a form at a type if it is a value of that kind, whatever its
parts are. This can be asked of every part in turn, and so can anything else. -/

namespace WireSchema

namespace TypedValue

variable {table : Table}

def HasAll (fields : Record Value) (declared : List Field) : Prop :=
  ∀ field ∈ declared, ∃ value, Record.get? fields field.name = some value

inductive Fills : Payload Value → Shape → Prop
  | empty : Fills .empty .empty
  | named {fields : Record Value} {declared : List Field} (all : HasAll fields declared) :
      Fills (.named fields) (.named declared)
  | tuple {items : List Value} {types : List FieldType} (sized : types.length = items.length) :
      Fills (.tuple items) (.tuple types)

/-- A value of the kind that a type asks for, as far as can be told without its parts. -/
inductive HasForm (table : Table) : TypedValue → Prop
  | bool (b : Bool) : HasForm table ⟨.bool b, .primitive .bool⟩
  | unsigned {width : Width} {n : Nat} (bound : width.containsNat n = true) :
      HasForm table ⟨.unsigned n, .primitive (.unsigned width)⟩
  | signed {width : Width} {i : Int} (bound : width.containsInt i = true) :
      HasForm table ⟨.signed i, .primitive (.signed width)⟩
  | single (x : Binary64) : HasForm table ⟨.float x, .primitive .single⟩
  | double (x : Binary64) : HasForm table ⟨.float x, .primitive .double⟩
  | string (s : String) : HasForm table ⟨.string s, .primitive .string⟩
  | bytes (b : List UInt8) : HasForm table ⟨.bytes b, .primitive .bytes⟩
  | publicKey (key : PublicKey) : HasForm table ⟨.publicKey key, .primitive .publicKey⟩
  | vec (items : List Value) (item : FieldType) : HasForm table ⟨.list items, .vec item⟩
  | array {items : List Value} {length : Nat} (item : FieldType) (sized : items.length = length) :
      HasForm table ⟨.list items, .array item length⟩
  | option (content : Option Value) (item : FieldType) :
      HasForm table ⟨.option content, .option item⟩
  | map (entries : List (Value × Value)) (key item : FieldType) :
      HasForm table ⟨.map entries, .hashMap key item⟩
  | struct {name : String} {declared : List Field} {fields : Record Value}
      (known : table.body? name = some (.struct declared)) (all : HasAll fields declared) :
      HasForm table ⟨.struct name fields, .defined name⟩
  | enum {name kind : String} {variants : List Variant} {tag : UInt8} {variant : Variant}
      {payload : Payload Value} (known : table.body? name = some (.enum variants))
      (chosen : Convert.findVariant name variants kind = .ok (tag.toNat, variant))
      (carried : Fills payload variant.shape) :
      HasForm table ⟨.enum name kind tag payload, .defined name⟩

/-- A value with more to it than its type can hold: precision beyond that of a single, or a field
that is not declared. -/
inductive IsLoose (table : Table) : TypedValue → Prop
  | single {x : Binary64} (number : x.isNaN = false) (changed : x.toSingle ≠ x) :
      IsLoose table ⟨.float x, .primitive .single⟩
  | struct {name key : String} {declared : List Field} {fields : Record Value}
      (known : table.body? name = some (.struct declared)) (present : key ∈ Record.keys fields)
      (undeclared : key ∉ declared.map Field.name) :
      IsLoose table ⟨.struct name fields, .defined name⟩
  | enum {name kind key : String} {variants : List Variant} {tag : UInt8} {position : Nat}
      {variant : Variant} {declared : List Field} {fields : Record Value}
      (known : table.body? name = some (.enum variants))
      (chosen : Convert.findVariant name variants kind = .ok (position, variant))
      (shape : variant.shape = .named declared) (present : key ∈ Record.keys fields)
      (undeclared : key ∉ declared.map Field.name) :
      IsLoose table ⟨.enum name kind tag (.named fields), .defined name⟩

def Throughout (table : Table) (test : TypedValue → Prop) (whole : TypedValue) : Prop :=
  ∀ depth inner, Inside table depth whole inner → test inner

/-- Parts are smaller than what they are parts of. -/
theorem induction_on_parts (table : Table) {motive : TypedValue → Prop}
    (step : ∀ whole, (∀ part ∈ parts table whole, motive part) → motive whole)
    (whole : TypedValue) : motive whole :=
  step whole fun part member =>
    have := sizeOf_lt_of_mem_parts member
    induction_on_parts table step part
termination_by sizeOf whole.value

theorem throughout_iff {test : TypedValue → Prop} {whole : TypedValue} :
    Throughout table test whole ↔
      test whole ∧ ∀ part ∈ whole.parts table, Throughout table test part := by
  constructor
  · intro all
    exact ⟨all _ _ .self, fun part member depth inner below => all _ _ (.part member below)⟩
  · rintro ⟨here, below⟩ depth inner inside
    cases inside with
    | self => exact here
    | part member deeper => exact below _ member _ _ deeper

theorem parts_primitive (value : Value) (p : Primitive) :
    parts table ⟨value, .primitive p⟩ = [] := by
  cases value with
  | option content => cases content <;> rfl
  | _ => rfl

theorem forall_ofMembers {test : TypedValue → Prop} {fields : Record Value}
    {declared : List Field} :
    (∀ part ∈ ofMembers fields declared, test part) ↔ ∀ field ∈ declared, ∀ value,
      Record.get? fields field.name = some value → test ⟨value, field.type⟩ := by
  simp only [ofMembers, List.mem_filterMap, Option.map_eq_some_iff]
  constructor
  · intro each field member value found
    exact each _ ⟨field, member, value, found, rfl⟩
  · rintro each _ ⟨field, member, value, found, rfl⟩
    exact each field member value found

theorem forall_parts_map {test : TypedValue → Prop} {entries : List (Value × Value)}
    {key item : FieldType} :
    (∀ part ∈ parts table ⟨.map entries, .hashMap key item⟩, test part) ↔
      ∀ entry ∈ entries, test ⟨entry.1, key⟩ ∧ test ⟨entry.2, item⟩ := by
  simp only [parts, List.forall_mem_flatMap]
  refine forall₂_congr fun entry _ => ?_
  rw [List.forall_mem_cons, List.forall_mem_singleton]

theorem parts_struct {name : String} {declared : List Field}
    (known : table.body? name = some (.struct declared)) (fields : Record Value) :
    parts table ⟨.struct name fields, .defined name⟩ = ofMembers fields declared := by
  simp only [parts, known]

def carried : Payload Value → Record Value
  | .empty => []
  | .named fields => fields
  | .tuple items => keyedFrom 0 items

theorem ofPayload_of_fills {payload : Payload Value} {shape : Shape}
    (fills : Fills payload shape) :
    ofPayload payload shape = ofMembers (carried payload) shape.members := by
  cases fills with
  | empty => rfl
  | named all => rfl
  | tuple sized =>
    rw [members_tuple]
    exact (ofMembers_elementsFrom sized (holdsFrom_keyedFrom 0 _)).symm

theorem hasAll_elementsFrom {fields : Record Value} {position : Nat} {items : List Value}
    {types : List FieldType} (sized : types.length = items.length)
    (holds : HoldsFrom fields position items) : HasAll fields (elementsFrom position types) := by
  induction types generalizing position items with
  | nil => exact fun _ member => by cases member
  | cons type rest ih =>
    cases items with
    | nil => cases sized
    | cons item others =>
      exact List.forall_mem_cons.2 ⟨⟨item, holds.first⟩, ih (Nat.succ.inj sized) holds.rest⟩

theorem hasAll_carried {payload : Payload Value} {shape : Shape} (fills : Fills payload shape) :
    HasAll (carried payload) shape.members := by
  cases fills with
  | empty => exact fun _ member => by cases member
  | named all => exact all
  | tuple sized =>
    rw [members_tuple]
    exact hasAll_elementsFrom sized (holdsFrom_keyedFrom 0 _)

theorem parts_enum {name kind : String} {variants : List Variant} {tag : UInt8} {variant : Variant}
    {payload : Payload Value} {position : Nat} (known : table.body? name = some (.enum variants))
    (chosen : Convert.findVariant name variants kind = .ok (position, variant))
    (fills : Fills payload variant.shape) :
    parts table ⟨.enum name kind tag payload, .defined name⟩ =
      ofMembers (carried payload) variant.shape.members := by
  simp only [parts, known, (Convert.findVariant_eq_ok.1 chosen).2]
  exact ofPayload_of_fills fills

end TypedValue

end WireSchema
