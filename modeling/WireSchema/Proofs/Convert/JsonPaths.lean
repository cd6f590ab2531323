import WireSchema.Proofs.Convert.TreePaths

/-! Paths of errors in the conversions between values and JSON, and of all four conversions
together. -/

namespace WireSchema

open Outcome

namespace Value

variable {table : Table}

/-! ## JSON of values -/

theorem isRelative_jsonOfValue (p : Primitive) (value : Value) :
    IsRelative fun path => p.jsonOfValue value path := by
  cases p with
  | bool =>
    cases value with
    | bool b => exact .ok (Json.bool b)
    | _ => exact .mismatch _ _
  | unsigned w =>
    cases value with
    | unsigned n => exact .ite (.ok _) (.mismatch _ _)
    | _ => exact .mismatch _ _
  | signed w =>
    cases value with
    | signed i => exact .ite (.ok _) (.mismatch _ _)
    | _ => exact .mismatch _ _
  | single =>
    cases value with
    | float x => exact .ok (Json.ofFloat x)
    | _ => exact .mismatch _ _
  | double =>
    cases value with
    | float x => exact .ok (Json.ofFloat x)
    | _ => exact .mismatch _ _
  | string =>
    cases value with
    | string s => exact .ok (Json.string s)
    | _ => exact .mismatch _ _
  | bytes =>
    cases value with
    | bytes b => exact .ok (Json.array _)
    | _ => exact .mismatch _ _
  | publicKey =>
    cases value with
    | publicKey key => exact .ok (Json.string key.text)
    | _ => exact .mismatch _ _

theorem isRelative_jsonOfLeaf (table : Table) (value : Value) (type : FieldType) :
    IsRelative fun path => jsonOfLeaf table value type path := by
  have other : IsRelative fun path => (rejected table value type path : Convert Json) :=
    isRelative_rejected table value type
  cases type with
  | primitive p => exact isRelative_jsonOfValue p value
  | _ => exact other

theorem isRelative_jsonOfEmpty (shape : Shape) :
    IsRelative fun path => jsonOfCarried table .empty shape path := by
  cases shape with
  | empty => exact .ok (none : Option Json)
  | _ => exact .mismatch _ _

theorem isRelative_jsonOfNamed {fields : Record Value}
    (each : IsRelative.AreRelative (jsonFields table fields)) {shape : Shape}
    (shaped : shape.HasNames) :
    IsRelative fun path => jsonOfCarried table (.named fields) shape path := by
  cases shape with
  | named declared => exact .bind (.members each shaped.isIdentifier_of_mem) fun _ _ => .ok _
  | _ => exact .mismatch _ _

theorem isRelative_jsonOfTuple {items : List Value}
    (each : ∀ convert ∈ jsonElements table items, ∀ type, IsRelative (convert type))
    (shape : Shape) : IsRelative fun path => jsonOfCarried table (.tuple items) shape path := by
  cases shape with
  | tuple types =>
    exact .bind (.checkArity types (jsonElements table items).length) fun _ _ =>
      .bind (.elements each 0) fun _ _ => .ok _
  | _ => exact .mismatch _ _

theorem isRelative_toJson_enum (names : table.HasNames) {payload : Payload Value}
    (carried : ∀ shape : Shape, shape.HasNames →
      IsRelative fun path => jsonOfCarried table payload shape path)
    (typeName kind : String) (tag : UInt8) (type : FieldType) :
    IsRelative fun path => toJson table (.enum typeName kind tag payload) type path := by
  have leaf := isRelative_jsonOfLeaf table (.enum typeName kind tag payload) type
  cases type with
  | defined name =>
    simp only [toJson_enum]
    exact isRelative_convertEnum names carried variantObject typeName kind tag name
  | _ => exact leaf

mutual

theorem isRelative_toJson (names : table.HasNames) : (value : Value) → (type : FieldType) →
    IsRelative fun path => toJson table value type path
  | .list items, type => by
    have leaf := isRelative_jsonOfLeaf table (.list items) type
    cases type with
    | vec item => exact (isRelative_jsonItems names items item 0).map _
    | array item length =>
      exact .ite ((isRelative_jsonItems names items item 0).map _) (.mismatch _ _)
    | _ => exact leaf
  | .option none, type => by
    have leaf := isRelative_jsonOfLeaf table (.option none) type
    cases type with
    | option item => exact .ok Json.null
    | _ => exact leaf
  | .option (some value), type => by
    have leaf := isRelative_jsonOfLeaf table (.option (some value)) type
    cases type with
    | option item => exact isRelative_toJson names value item
    | _ => exact leaf
  | .map entries, type => by
    have leaf := isRelative_jsonOfLeaf table (.map entries) type
    cases type with
    | hashMap key item => exact (isRelative_jsonEntries names entries key item 0).map _
    | _ => exact leaf
  | .struct typeName fields, type => by
    have leaf := isRelative_jsonOfLeaf table (.struct typeName fields) type
    cases type with
    | defined name =>
      refine .bind (.definition table name) fun body defined => ?_
      have known := Convert.definition_eq_ok.1 (defined "")
      cases body with
      | struct declared =>
        have each := areRelative_of_get? (get?_jsonFields fields)
          (isRelative_jsonFields names fields)
        exact .ite (.bind (.members each (isIdentifier_of_struct names known)) fun _ _ => .ok _)
          (.mismatch _ _)
      | enum variants => exact .mismatch _ _
    | _ => exact leaf
  | .enum typeName kind tag .empty, type =>
    isRelative_toJson_enum names (fun shape _ => isRelative_jsonOfEmpty shape) typeName kind tag type
  | .enum typeName kind tag (.named fields), type =>
    have each := areRelative_of_get? (get?_jsonFields fields) (isRelative_jsonFields names fields)
    isRelative_toJson_enum names (fun _ => isRelative_jsonOfNamed each) typeName kind tag type
  | .enum typeName kind tag (.tuple items), type =>
    have each := isRelative_jsonElements names items
    isRelative_toJson_enum names (fun shape _ => isRelative_jsonOfTuple each shape) typeName kind tag
      type
  | .bool b, type => isRelative_jsonOfLeaf table (.bool b) type
  | .unsigned n, type => isRelative_jsonOfLeaf table (.unsigned n) type
  | .signed i, type => isRelative_jsonOfLeaf table (.signed i) type
  | .float x, type => isRelative_jsonOfLeaf table (.float x) type
  | .string s, type => isRelative_jsonOfLeaf table (.string s) type
  | .bytes b, type => isRelative_jsonOfLeaf table (.bytes b) type
  | .publicKey key, type => isRelative_jsonOfLeaf table (.publicKey key) type
termination_by structural value => value

theorem isRelative_jsonItems (names : table.HasNames) : (items : List Value) →
    (type : FieldType) → (position : Nat) →
    IsRelative fun path => jsonItems table items type path position
  | [], _, _ => .ok []
  | item :: rest, type, position =>
    .item position (isRelative_toJson names item type)
      (isRelative_jsonItems names rest type (position + 1))
termination_by structural items => items

theorem isRelative_jsonEntries (names : table.HasNames) : (entries : List (Value × Value)) →
    (key item : FieldType) → (position : Nat) →
    IsRelative fun path => jsonEntries table entries key item path position
  | [], _, _, _ => .ok []
  | (keyValue, itemValue) :: rest, key, item, position =>
    .entry position (isRelative_toJson names keyValue key)
      (isRelative_toJson names itemValue item)
      (isRelative_jsonEntries names rest key item (position + 1)) fun first second =>
        Json.array [first, second]
termination_by structural entries => entries

theorem isRelative_jsonFields (names : table.HasNames) : (fields : List (String × Value)) →
    ∀ entry ∈ fields, ∀ type, IsRelative fun path => toJson table entry.2 type path
  | [] => by simp
  | (_, value) :: rest =>
    List.forall_mem_cons.2 ⟨isRelative_toJson names value, isRelative_jsonFields names rest⟩
termination_by structural fields => fields

theorem isRelative_jsonElements (names : table.HasNames) : (items : List Value) →
    ∀ convert ∈ jsonElements table items, ∀ type, IsRelative (convert type)
  | [] => by simp [jsonElements]
  | value :: rest =>
    List.forall_mem_cons.2 ⟨isRelative_toJson names value, isRelative_jsonElements names rest⟩
termination_by structural items => items

end

/-! ## Values of JSON -/

theorem isRelative_jsonAccess (expected : String) (json : Json) (found : Option α) :
    IsRelative fun path => Convert.jsonAccess path expected json found := by
  cases found with
  | some value => exact .ok value
  | none => exact .mismatch _ _

theorem isRelative_jsonByte (json : Json) : IsRelative fun path => Convert.jsonByte path json := by
  unfold Convert.jsonByte
  cases json.natural? with
  | some n => exact .ite (.ok (UInt8.ofNat n)) (.mismatch _ _)
  | none => exact .mismatch _ _

theorem isRelative_jsonBytes (items : List Json) (position : Nat) :
    IsRelative fun path => Convert.jsonBytes path position items := by
  induction items generalizing position with
  | nil => exact .ok []
  | cons item rest ih =>
    exact .bind (.atIndex position (isRelative_jsonByte item)) fun _ _ =>
      .bind (ih (position + 1)) fun _ _ => .ok _

theorem isRelative_jsonInteger [ToString α] (p : Primitive) (fits : α → Bool)
    {read : String → Convert α} (bare : ∀ text, IsBare (read text)) (number? : Json → Option α)
    (json : Json) : IsRelative fun path => Convert.jsonInteger p fits read number? path json := by
  have numeral : IsRelative fun path => Convert.jsonNumeral p read number? path json :=
    .ite
      (.bind (isRelative_jsonAccess _ json json.string?) fun text _ => .within (bare text))
      (isRelative_jsonAccess _ json (number? json))
  exact .bind numeral fun n _ => .ite (.ok n) (.mismatch _ _)

theorem isRelative_valueOfJson (p : Primitive) (json : Json) :
    IsRelative fun path => p.valueOfJson json path := by
  cases p with
  | bool => exact (isRelative_jsonAccess _ json json.bool?).map _
  | unsigned w =>
    exact (isRelative_jsonInteger (.unsigned w) _ (.readNumeral _ _) Json.natural? json).map _
  | signed w =>
    exact (isRelative_jsonInteger (.signed w) _ (.readNumeral _ _) Json.integer? json).map _
  | single => exact (isRelative_jsonAccess _ json json.float?).map _
  | double => exact (isRelative_jsonAccess _ json json.float?).map _
  | string => exact (isRelative_jsonAccess _ json json.string?).map _
  | bytes =>
    exact .bind (isRelative_jsonAccess _ json json.array?) fun items _ =>
      .bind (isRelative_jsonBytes items 0) fun _ _ => .ok _
  | publicKey =>
    exact .bind (isRelative_jsonAccess _ json json.string?) fun text _ =>
      .bind (.within (.readPublicKey text)) fun _ _ => .ok _

theorem isRelative_ofJsonLeaf (table : Table) (json : Json) (type : FieldType) :
    IsRelative fun path => ofJsonLeaf table json type path := by
  cases type with
  | primitive p => exact isRelative_valueOfJson p json
  | defined name =>
    refine .bind (.definition table name) fun body _ => ?_
    cases body with
    | struct declared => exact .mismatch _ _
    | enum variants => exact .mismatch _ _
  | _ => exact .mismatch _ _

theorem isRelative_kindOfMembers (members : Record Json) :
    IsRelative fun path => kindOfMembers members path := by
  have valid : isIdentifier "kind" = true := by decide
  unfold kindOfMembers
  cases Record.get? members "kind" with
  | none => exact .atField valid (.mismatch _ _)
  | some json =>
    cases json with
    | string kind => exact .ok kind
    | _ => exact .atField valid (.mismatch _ _)

theorem isRelative_payloadWithout (found : String) (shape : Shape) :
    IsRelative fun path => payloadWithout found shape path := by
  cases shape with
  | empty => exact .ok Payload.empty
  | named fields => exact .mismatch _ _
  | tuple types => exact .mismatch _ _

def CarriesRelative (convert : PayloadConverter) : Prop :=
  ∀ shape : Shape, shape.HasNames → IsRelative fun path => convert shape path

theorem isRelative_enumOfBody (names : table.HasNames) {name : String} {variants : List Variant}
    (known : table.body? name = some (.enum variants)) (kind : String)
    {body : Option PayloadConverter} (carries : ∀ convert ∈ body, CarriesRelative convert) :
    IsRelative fun path => enumOfBody name variants kind body path := by
  refine .bind (.findVariant name variants kind) fun (position, variant) chosen => ?_
  obtain ⟨valid, shaped⟩ := isIdentifier_of_findVariant names known (chosen "")
  refine .bind (.atField valid ?_) fun _ _ => .ok _
  cases body with
  | none => exact isRelative_payloadWithout "nothing" variant.shape
  | some convert => exact carries convert rfl variant.shape shaped

/- Follows the recursion of the conversion. A member of an object may be one of a struct and the
payload of a variant. -/
mutual

theorem isRelative_ofJson (names : table.HasNames) : (json : Json) → (type : FieldType) →
    IsRelative fun path => ofJson table json type path
  | .null, type => by
    have leaf := isRelative_ofJsonLeaf table .null type
    cases type with
    | option item => exact .ok (Value.option none)
    | _ => exact leaf
  | .array items, type => by
    refine .map (wrapped type.optionDepth) ?_
    generalize type.core = core
    have leaf := isRelative_ofJsonLeaf table (.array items) core
    cases core with
    | vec item => exact (isRelative_ofJsonItems names items item 0).map _
    | array item length =>
      exact .ite ((isRelative_ofJsonItems names items item 0).map _) (.mismatch _ _)
    | hashMap key item => exact (isRelative_ofJsonPairs names items key item 0).map _
    | _ => exact leaf
  | .object members, type => by
    refine .map (wrapped type.optionDepth) ?_
    generalize type.core = core
    have leaf := isRelative_ofJsonLeaf table (.object members) core
    cases core with
    | defined name =>
      refine .bind (.definition table name) fun body defined => ?_
      have known := Convert.definition_eq_ok.1 (defined "")
      have below := isRelative_jsonMembers names members
      cases body with
      | struct declared =>
        have each := areRelative_of_get? (get?_ofJsonMembers members)
          fun entry member => (below entry member).1
        exact .bind (.membersOr _ each (isIdentifier_of_struct names known)) fun _ _ => .ok _
      | enum variants =>
        refine .bind (isRelative_kindOfMembers members) fun kind _ =>
          isRelative_enumOfBody names known kind fun convert body => ?_
        rw [get?_ofJsonBodies] at body
        obtain ⟨json, here, rfl⟩ := Option.map_eq_some_iff.1 body
        exact (below _ (Record.mem_of_get? here)).2
    | _ => exact leaf
  | .bool b, type => .map (wrapped type.optionDepth) (isRelative_ofJsonLeaf table (.bool b) type.core)
  | .number n, type =>
    .map (wrapped type.optionDepth) (isRelative_ofJsonLeaf table (.number n) type.core)
  | .string s, type =>
    .map (wrapped type.optionDepth) (isRelative_ofJsonLeaf table (.string s) type.core)
termination_by structural json => json

theorem isRelative_ofJsonItems (names : table.HasNames) : (items : List Json) →
    (type : FieldType) → (position : Nat) →
    IsRelative fun path => ofJsonItems table items type path position
  | [], _, _ => .ok []
  | item :: rest, type, position =>
    .item position (isRelative_ofJson names item type)
      (isRelative_ofJsonItems names rest type (position + 1))
termination_by structural items => items

theorem isRelative_ofJsonPairs (names : table.HasNames) : (items : List Json) →
    (key item : FieldType) → (position : Nat) →
    IsRelative fun path => ofJsonPairs table items key item path position
  | [], _, _, _ => .ok []
  | pair :: rest, key, item, position =>
    .item position (isRelative_ofJsonPair names pair key item)
      (isRelative_ofJsonPairs names rest key item (position + 1))
termination_by structural items => items

theorem isRelative_ofJsonPair (names : table.HasNames) : (json : Json) →
    (key item : FieldType) → IsRelative fun path => ofJsonPair table json key item path
  | .array [keyJson, itemJson], key, item =>
    .bind (isRelative_ofJson names keyJson key) fun _ _ =>
      .bind (isRelative_ofJson names itemJson item) fun _ _ => .ok _
  | .array [], _, _ => .mismatch _ _
  | .array [_], _, _ => .mismatch _ _
  | .array (_ :: _ :: _ :: _), _, _ => .mismatch _ _
  | .null, _, _ => .mismatch _ _
  | .bool _, _, _ => .mismatch _ _
  | .number _, _, _ => .mismatch _ _
  | .string _, _, _ => .mismatch _ _
  | .object _, _, _ => .mismatch _ _
termination_by structural json => json

theorem isRelative_jsonMembers (names : table.HasNames) : (members : List (String × Json)) →
    ∀ entry ∈ members, (∀ type, IsRelative fun path => ofJson table entry.2 type path) ∧
      CarriesRelative (ofJsonBody table entry.2)
  | [] => by simp
  | (_, json) :: rest =>
    List.forall_mem_cons.2 ⟨⟨isRelative_ofJson names json, carriesRelative_ofJsonBody names json⟩,
      isRelative_jsonMembers names rest⟩
termination_by structural members => members

theorem isRelative_ofJsonElements (names : table.HasNames) : (items : List Json) →
    ∀ convert ∈ ofJsonElements table items, ∀ type, IsRelative (convert type)
  | [] => by simp [ofJsonElements]
  | json :: rest =>
    List.forall_mem_cons.2 ⟨isRelative_ofJson names json, isRelative_ofJsonElements names rest⟩
termination_by structural items => items

theorem carriesRelative_ofJsonBody (names : table.HasNames) : (json : Json) →
    CarriesRelative (ofJsonBody table json)
  | .object members, shape, shaped => by
    have other := isRelative_payloadWithout "object" shape
    have each := areRelative_of_get? (get?_ofJsonMembers members)
      fun entry member => (isRelative_jsonMembers names members entry member).1
    cases shape with
    | named declared => exact (IsRelative.membersOr _ each shaped.isIdentifier_of_mem).map _
    | _ => exact other
  | .array items, shape, _ => by
    have other := isRelative_payloadWithout "array" shape
    have each := isRelative_ofJsonElements names items
    cases shape with
    | tuple types =>
      exact .bind (.checkArity types items.length) fun _ _ =>
        .bind (.elements each 0) fun _ _ => .ok _
    | _ => exact other
  | .null, shape, _ => isRelative_payloadWithout _ shape
  | .bool _, shape, _ => isRelative_payloadWithout _ shape
  | .number _, shape, _ => isRelative_payloadWithout _ shape
  | .string _, shape, _ => isRelative_payloadWithout _ shape
termination_by structural json => json

end

/-! ## All conversions -/

/-- It makes no difference whether a path is handed to a conversion or put before its errors. -/
theorem isPositional_conversions {types : List TypeDef} (accepted : Table.ofTypes types = .ok table)
    (type : FieldType) :
    (∀ tree, IsPositional fun path => ofTree table tree type path) ∧
    (∀ value : Value, value.contains hasOddKey = false →
      IsPositional fun path => toTree table value type path) ∧
    (∀ value, IsPositional fun path => toJson table value type path) ∧
    ∀ json, IsPositional fun path => ofJson table json type path := by
  have names := (Table.ofTypes_eq_ok accepted).2
  exact ⟨fun tree => (isRelative_ofTree names tree type).isPositional,
    fun value plain => (isRelative_toTree names value plain type).isPositional,
    fun value => (isRelative_toJson names value type).isPositional,
    fun json => (isRelative_ofJson names json type).isPositional⟩

def strokes : List TypeDef :=
  [⟨"Point", .struct [⟨"x", .primitive (.unsigned .w8)⟩]⟩,
   ⟨"Stroke", .enum [⟨"Dot", .tuple [.defined "Point"]⟩,
    ⟨"Line", .named [⟨"points", .vec (.defined "Point")⟩]⟩]⟩]

def farLine : Value :=
  .enum "Stroke" "Line" 1 (.named [("points", .list [.struct "Point" [("x", .unsigned 1)],
    .struct "Point" [("x", .unsigned 300)]])])

theorem isPositional_conversions_farLine :
    Table.ofTypes strokes = .ok ⟨strokes⟩ ∧ farLine.contains hasOddKey = false ∧
      toTree ⟨strokes⟩ farLine (.defined "Stroke") "pen[0]" =
        .error (.shapeMismatch "pen[0].Line.points[1].x" "u8" "300") ∧
      toJson ⟨strokes⟩ farLine (.defined "Stroke") "pen[0]" =
        .error (.shapeMismatch "pen[0].Line.points[1].x" "u8" "unsigned integer") ∧
      ofJson ⟨strokes⟩ (.array [.null]) (.vec (.defined "Point")) "pen" =
        .error (.shapeMismatch "pen[0]" "object for Point" "null") ∧
      ofTree ⟨strokes⟩ (.list [.record []]) (.vec (.defined "Point")) "pen" =
        .error (.shapeMismatch "pen[0].x" "field \x60x\x60" "nothing") := by
  have accepted : Table.ofTypes strokes = .ok ⟨strokes⟩ := by decide
  have plain : farLine.contains hasOddKey = false := by decide
  obtain ⟨-, toTrees, toJsons, -⟩ := isPositional_conversions accepted (.defined "Stroke")
  obtain ⟨ofTrees, -, -, ofJsons⟩ := isPositional_conversions accepted (.vec (.defined "Point"))
  refine ⟨accepted, plain, ((toTrees farLine plain).pulled "pen[0]" (by decide)).trans ?_,
    ((toJsons farLine).pulled "pen[0]" (by decide)).trans ?_,
    ((ofJsons (.array [.null])).pulled "pen" (by decide)).trans ?_,
    ((ofTrees (.list [.record []])).pulled "pen" (by decide)).trans ?_⟩
  · rfl
  · rfl
  · rfl
  · rfl

/-- A key that is no identifier may leave a point at the end of a path. -/
example :
    let write := toTree ⟨[⟨"Point", .struct []⟩]⟩ (.struct "Point" [("", .unsigned 1)])
      (.defined "Point")
    write "" = .error (.shapeMismatch "" "no such field" "a value") ∧
      write "pen" = .error (.shapeMismatch "pen." "no such field" "a value") :=
  ⟨rfl, rfl⟩

end Value

end WireSchema
