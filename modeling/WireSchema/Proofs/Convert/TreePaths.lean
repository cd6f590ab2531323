import WireSchema.Proofs.Convert.Relative
import WireSchema.Proofs.Convert.ToJson

/-! Paths of errors in the conversions between values and trees. Both hand down the path of the place
where they are, and have the same outcome for all paths. The keys of a value that is written are no
exception if they are identifiers, as those of its type are. -/

namespace WireSchema

open Outcome

namespace Value

variable {table : Table}

/-- The converters of a record, made of its entries. -/
theorem areRelative_of_get? {record : Record α} {converters : Record (Converter β)}
    {converter : α → Converter β}
    (made : ∀ key, Record.get? converters key = (Record.get? record key).map converter)
    (each : ∀ entry ∈ record, ∀ type, IsRelative (converter entry.2 type)) :
    IsRelative.AreRelative converters := by
  intro key convert found
  rw [made] at found
  obtain ⟨content, here, rfl⟩ := Option.map_eq_some_iff.1 found
  exact each _ (Record.mem_of_get? here)

theorem isIdentifier_of_struct (names : table.HasNames) {name : String} {declared : List Field}
    (known : table.body? name = some (.struct declared)) :
    ∀ field ∈ declared, isIdentifier field.name = true :=
  fun _ member => (names.of_body? known).identifiers _ (List.mem_map_of_mem member)

theorem isIdentifier_of_findVariant (names : table.HasNames) {name kind : String}
    {variants : List Variant} (known : table.body? name = some (.enum variants)) {position : Nat}
    {variant : Variant} (chosen : Convert.findVariant name variants kind = .ok (position, variant)) :
    isIdentifier kind = true ∧ variant.shape.HasNames := by
  obtain ⟨-, kinds, shapes⟩ := names.of_body? known
  obtain ⟨declared, rfl⟩ := Convert.mem_of_findVariant chosen
  exact ⟨kinds.identifiers _ (List.mem_map_of_mem declared), shapes variant declared⟩

/-! ## Values of trees -/

theorem isRelative_ofLeaf (table : Table) (tree : Tree) (type : FieldType) :
    IsRelative fun path => ofLeaf table tree type path := by
  cases type with
  | primitive p => exact .within (.valueOfTree p tree)
  | defined name =>
    refine .bind (.definition table name) fun body _ => ?_
    cases body with
    | struct declared => exact .within (.mismatch _ _)
    | enum variants =>
      cases tree with
      | record fields =>
        match fields with
        | [] | [_] | _ :: _ :: _ => exact .invalidEnum _ _
      | _ => exact .invalidEnum _ _
  | _ => exact .within (.mismatch _ _)

theorem isRelative_payloadOfRecord {converters : Record (Converter Value)} {shape : Shape}
    (each : IsRelative.AreRelative converters) (names : shape.HasNames) :
    IsRelative fun path => payloadOfRecord converters path shape := by
  cases shape with
  | empty => exact .ok Payload.empty
  | named fields => exact (IsRelative.members each names.isIdentifier_of_mem).map _
  | tuple types => exact (IsRelative.members each names.isIdentifier_of_mem).map _

/-- The conversion of a record is stuck until it is known how many entries there are. -/
theorem ofTree_record (fields : Record Tree) (name path : String) :
    ofTree table (.record fields) (.defined name) path = (do
      match ← Convert.definition table name path with
      | .struct declared =>
        return .struct name (← Convert.members (ofFields table fields) path declared)
      | .enum variants =>
        match fields with
        | [(kind, payload)] =>
          match Convert.findVariant name variants kind with
          | .ok (position, variant) =>
            let payload ← ofPayload table payload variant.shape (Convert.atField path kind)
            return .enum name kind (Convert.tagOf position) payload
          | .error _ => throw ((Tree.record fields).noVariantMatched name)
        | fields => ofLeaf table (.record fields) (.defined name) path) := by
  match fields with
  | [] => rfl
  | [_] => rfl
  | _ :: _ :: _ => rfl

/- Follows the recursion of the conversion. -/
mutual

theorem isRelative_ofTree (names : table.HasNames) : (tree : Tree) → (type : FieldType) →
    IsRelative fun path => ofTree table tree type path
  | .list items, type => by
    have leaf := isRelative_ofLeaf table (.list items) type
    cases type with
    | vec item => exact (isRelative_ofItems names items item 0).map _
    | array item length => exact .ite ((isRelative_ofItems names items item 0).map _) (.mismatch _ _)
    | _ => exact leaf
  | .option none, type => by
    have leaf := isRelative_ofLeaf table (.option none) type
    cases type with
    | option item => exact .ok (Value.option none)
    | _ => exact leaf
  | .option (some tree), type => by
    have leaf := isRelative_ofLeaf table (.option (some tree)) type
    cases type with
    | option item => exact (isRelative_ofTree names tree item).map _
    | _ => exact leaf
  | .map entries, type => by
    have leaf := isRelative_ofLeaf table (.map entries) type
    cases type with
    | hashMap key item => exact (isRelative_ofEntries names entries key item 0).map _
    | _ => exact leaf
  | .record fields, type => by
    have leaf := isRelative_ofLeaf table (.record fields) type
    cases type with
    | defined name =>
      simp only [ofTree_record]
      refine .bind (.definition table name) fun body defined => ?_
      have known := Convert.definition_eq_ok.1 (defined "")
      cases body with
      | struct declared =>
        have each := areRelative_of_get? (get?_ofFields fields) (isRelative_ofFields names fields)
        exact .bind (.members each (isIdentifier_of_struct names known)) fun _ _ => .ok _
      | enum variants =>
        match fields with
        | [(kind, payload)] =>
          cases chosen : Convert.findVariant name variants kind with
          | error error =>
            simp only [chosen]
            exact .invalidEnum _ _
          | ok found =>
            simp only [chosen]
            obtain ⟨position, variant⟩ := found
            obtain ⟨valid, shaped⟩ := isIdentifier_of_findVariant names known chosen
            exact .bind (.atField valid (isRelative_ofPayload names payload shaped)) fun _ _ => .ok _
        | [] => exact leaf
        | _ :: _ :: _ => exact leaf
    | _ => exact leaf
  | .bool b, type => isRelative_ofLeaf table (.bool b) type
  | .unsigned n, type => isRelative_ofLeaf table (.unsigned n) type
  | .signed i, type => isRelative_ofLeaf table (.signed i) type
  | .float x, type => isRelative_ofLeaf table (.float x) type
  | .string s, type => isRelative_ofLeaf table (.string s) type
  | .bytes b, type => isRelative_ofLeaf table (.bytes b) type
termination_by structural tree => tree

theorem isRelative_ofItems (names : table.HasNames) : (items : List Tree) → (type : FieldType) →
    (position : Nat) → IsRelative fun path => ofItems table items type path position
  | [], _, _ => .ok []
  | item :: rest, type, position =>
    .item position (isRelative_ofTree names item type)
      (isRelative_ofItems names rest type (position + 1))
termination_by structural items => items

theorem isRelative_ofEntries (names : table.HasNames) : (entries : List (Tree × Tree)) →
    (key item : FieldType) → (position : Nat) →
    IsRelative fun path => ofEntries table entries key item path position
  | [], _, _, _ => .ok []
  | (keyTree, itemTree) :: rest, key, item, position =>
    .entry position (isRelative_ofTree names keyTree key) (isRelative_ofTree names itemTree item)
      (isRelative_ofEntries names rest key item (position + 1)) Prod.mk
termination_by structural entries => entries

theorem isRelative_ofFields (names : table.HasNames) : (fields : List (String × Tree)) →
    ∀ entry ∈ fields, ∀ type, IsRelative fun path => ofTree table entry.2 type path
  | [] => by simp
  | (_, tree) :: rest =>
    List.forall_mem_cons.2 ⟨isRelative_ofTree names tree, isRelative_ofFields names rest⟩
termination_by structural fields => fields

theorem isRelative_ofPayload (names : table.HasNames) : (tree : Tree) → {shape : Shape} →
    shape.HasNames → IsRelative fun path => ofPayload table tree shape path
  | .record fields, _, shaped =>
    isRelative_payloadOfRecord
      (areRelative_of_get? (get?_ofFields fields) (isRelative_ofFields names fields)) shaped
  | .list _, _, _ => .within (.mismatch _ _)
  | .option _, _, _ => .within (.mismatch _ _)
  | .map _, _, _ => .within (.mismatch _ _)
  | .bool _, _, _ => .within (.mismatch _ _)
  | .unsigned _, _, _ => .within (.mismatch _ _)
  | .signed _, _, _ => .within (.mismatch _ _)
  | .float _, _, _ => .within (.mismatch _ _)
  | .string _, _, _ => .within (.mismatch _ _)
  | .bytes _, _, _ => .within (.mismatch _ _)
termination_by structural tree => tree

end

/-! ## Trees of values -/

theorem isRelative_treeOfValue (p : Primitive) (value : Value) :
    IsRelative fun path => p.treeOfValue value path := by
  cases p with
  | bool =>
    cases value with
    | bool b => exact .ok (Tree.bool b)
    | _ => exact .mismatch _ _
  | unsigned w =>
    cases value with
    | unsigned n => exact .ite (.ok (Tree.unsigned n)) (.mismatch _ _)
    | _ => exact .mismatch _ _
  | signed w =>
    cases value with
    | signed i => exact .ite (.ok (Tree.signed i)) (.mismatch _ _)
    | _ => exact .mismatch _ _
  | single =>
    cases value with
    | float x => exact .ite (.ok (Tree.float x)) (.mismatch _ _)
    | _ => exact .mismatch _ _
  | double =>
    cases value with
    | float x => exact .ok (Tree.float x)
    | _ => exact .mismatch _ _
  | string =>
    cases value with
    | string s => exact .ok (Tree.string s)
    | _ => exact .mismatch _ _
  | bytes =>
    cases value with
    | bytes b => exact .ok (Tree.bytes b)
    | _ => exact .mismatch _ _
  | publicKey =>
    cases value with
    | publicKey key => exact .ok (Tree.bytes key.bytes)
    | _ => exact .mismatch _ _

theorem isRelative_rejected (table : Table) (value : Value) (type : FieldType) :
    IsRelative fun path => (rejected table value type path : Convert α) := by
  cases type with
  | defined name =>
    refine .bind (.definition table name) fun body _ => ?_
    cases body with
    | struct declared => exact .mismatch _ _
    | enum variants => exact .mismatch _ _
  | _ => exact .mismatch _ _

theorem isRelative_treeOfLeaf (table : Table) (value : Value) (type : FieldType) :
    IsRelative fun path => treeOfLeaf table value type path := by
  have other : IsRelative fun path => (rejected table value type path : Convert Tree) :=
    isRelative_rejected table value type
  cases type with
  | primitive p => exact isRelative_treeOfValue p value
  | _ => exact other

theorem isRelative_checkVariant (name : String) (variants : List Variant) (kind : String)
    (tag : UInt8) : IsRelative fun path => checkVariant name variants kind tag path :=
  .bind (.findVariant name variants kind) fun (_, variant) _ => .ite (.ok variant) (.mismatch _ _)

theorem isRelative_treeOfFields {converters : Record (Converter Tree)} {declared : List Field}
    (each : IsRelative.AreRelative converters)
    (keys : ∀ key ∈ Record.keys converters, isIdentifier key = true)
    (valid : ∀ field ∈ declared, isIdentifier field.name = true) :
    IsRelative fun path => treeOfFields declared converters path :=
  .bind (.checkDeclared keys) fun _ _ => .bind (.members each valid) fun _ _ => .ok _

theorem isRelative_treeOfEmpty (shape : Shape) :
    IsRelative fun path => treeOfCarried table .empty shape path := by
  cases shape with
  | empty => exact .ok (Tree.record [])
  | _ => exact .mismatch _ _

theorem isRelative_treeOfNamed {fields : Record Value}
    (each : IsRelative.AreRelative (treeFields table fields))
    (keys : ∀ key ∈ Record.keys (treeFields table fields), isIdentifier key = true)
    {shape : Shape} (shaped : shape.HasNames) :
    IsRelative fun path => treeOfCarried table (.named fields) shape path := by
  cases shape with
  | named declared => exact isRelative_treeOfFields each keys shaped.isIdentifier_of_mem
  | _ => exact .mismatch _ _

theorem isRelative_treeOfTuple {items : List Value}
    (each : ∀ convert ∈ treeElements table items, ∀ type, IsRelative (convert type))
    (shape : Shape) : IsRelative fun path => treeOfCarried table (.tuple items) shape path := by
  cases shape with
  | tuple types =>
    exact .bind (.checkArity types (treeElements table items).length) fun _ _ =>
      .bind (.elements each 0) fun _ _ => .ok _
  | _ => exact .mismatch _ _

theorem isRelative_convertEnum (names : table.HasNames)
    {carried : Payload Value → Shape → String → Convert β} {payload : Payload Value}
    (each : ∀ shape : Shape, shape.HasNames → IsRelative (carried payload shape))
    (write : String → β → γ) (typeName kind : String) (tag : UInt8) (name : String) :
    IsRelative fun path =>
      convertEnum table carried write typeName kind tag payload name path := by
  refine .bind (.definition table name) fun body defined => ?_
  have known := Convert.definition_eq_ok.1 (defined "")
  cases body with
  | struct declared => exact .mismatch _ _
  | enum variants =>
    refine .ite (.bind (isRelative_checkVariant name variants kind tag)
      fun variant checked => ?_) (.mismatch _ _)
    have chosen := checkVariant_eq_ok.1 (checked "")
    obtain ⟨valid, shaped⟩ := isIdentifier_of_findVariant names known chosen
    exact .bind (.atField valid (each variant.shape shaped)) fun _ _ => .ok _

theorem isRelative_toTree_enum (names : table.HasNames) {payload : Payload Value}
    (carried : ∀ shape : Shape, shape.HasNames →
      IsRelative fun path => treeOfCarried table payload shape path)
    (typeName kind : String) (tag : UInt8) (type : FieldType) :
    IsRelative fun path => toTree table (.enum typeName kind tag payload) type path := by
  have leaf := isRelative_treeOfLeaf table (.enum typeName kind tag payload) type
  cases type with
  | defined name =>
    simp only [toTree_enum]
    exact isRelative_convertEnum names carried Tree.variant typeName kind tag name
  | _ => exact leaf

/-- A record with a key that is no identifier. -/
def hasOddKey : Value → Bool
  | struct _ fields | enum _ _ _ (.named fields) =>
    fields.any fun entry => !isIdentifier entry.1
  | _ => false

theorem isIdentifier_of_keys_treeFields {fields : Record Value}
    (plain : (fields.any fun entry => !isIdentifier entry.1) = false) :
    ∀ key ∈ Record.keys (treeFields table fields), isIdentifier key = true := by
  intro key member
  rw [keys_treeFields] at member
  obtain ⟨entry, inside, rfl⟩ := List.mem_map.1 member
  simpa using List.any_eq_false.1 plain entry inside

mutual

theorem isRelative_toTree (names : table.HasNames) : (value : Value) →
    value.contains hasOddKey = false → (type : FieldType) →
    IsRelative fun path => toTree table value type path
  | .list items, plain, type => by
    have leaf := isRelative_treeOfLeaf table (.list items) type
    have inside := (Bool.or_eq_false_iff.1 plain).2
    cases type with
    | vec item => exact (isRelative_treeItems names items inside item 0).map _
    | array item length =>
      exact .ite ((isRelative_treeItems names items inside item 0).map _) (.mismatch _ _)
    | _ => exact leaf
  | .option none, _, type => by
    have leaf := isRelative_treeOfLeaf table (.option none) type
    cases type with
    | option item => exact .ok (Tree.option none)
    | _ => exact leaf
  | .option (some value), plain, type => by
    have leaf := isRelative_treeOfLeaf table (.option (some value)) type
    have inside := (Bool.or_eq_false_iff.1 plain).2
    cases type with
    | option item => exact (isRelative_toTree names value inside item).map _
    | _ => exact leaf
  | .map entries, plain, type => by
    have leaf := isRelative_treeOfLeaf table (.map entries) type
    have inside := (Bool.or_eq_false_iff.1 plain).2
    cases type with
    | hashMap key item => exact (isRelative_treeEntries names entries inside key item 0).map _
    | _ => exact leaf
  | .struct typeName fields, plain, type => by
    have leaf := isRelative_treeOfLeaf table (.struct typeName fields) type
    obtain ⟨here, inside⟩ := Bool.or_eq_false_iff.1 plain
    cases type with
    | defined name =>
      refine .bind (.definition table name) fun body defined => ?_
      have known := Convert.definition_eq_ok.1 (defined "")
      cases body with
      | struct declared =>
        have each := areRelative_of_get? (get?_treeFields fields)
          (isRelative_treeFields names fields inside)
        exact .ite (isRelative_treeOfFields each (isIdentifier_of_keys_treeFields here)
          (isIdentifier_of_struct names known)) (.mismatch _ _)
      | enum variants => exact .mismatch _ _
    | _ => exact leaf
  | .enum typeName kind tag .empty, _, type =>
    isRelative_toTree_enum names (fun shape _ => isRelative_treeOfEmpty shape) typeName kind tag type
  | .enum typeName kind tag (.named fields), plain, type => by
    obtain ⟨here, inside⟩ := Bool.or_eq_false_iff.1 plain
    have each := areRelative_of_get? (get?_treeFields fields)
      (isRelative_treeFields names fields inside)
    have keys : ∀ key ∈ Record.keys (treeFields table fields), isIdentifier key = true :=
      isIdentifier_of_keys_treeFields here
    exact isRelative_toTree_enum names (fun _ => isRelative_treeOfNamed each keys) typeName kind tag
      type
  | .enum typeName kind tag (.tuple items), plain, type => by
    have each := isRelative_treeElements names items (Bool.or_eq_false_iff.1 plain).2
    exact isRelative_toTree_enum names (fun shape _ => isRelative_treeOfTuple each shape) typeName
      kind tag type
  | .bool b, _, type => isRelative_treeOfLeaf table (.bool b) type
  | .unsigned n, _, type => isRelative_treeOfLeaf table (.unsigned n) type
  | .signed i, _, type => isRelative_treeOfLeaf table (.signed i) type
  | .float x, _, type => isRelative_treeOfLeaf table (.float x) type
  | .string s, _, type => isRelative_treeOfLeaf table (.string s) type
  | .bytes b, _, type => isRelative_treeOfLeaf table (.bytes b) type
  | .publicKey key, _, type => isRelative_treeOfLeaf table (.publicKey key) type
termination_by structural value => value

theorem isRelative_treeItems (names : table.HasNames) : (items : List Value) →
    itemsContain hasOddKey items = false → (type : FieldType) → (position : Nat) →
    IsRelative fun path => treeItems table items type path position
  | [], _, _, _ => .ok []
  | item :: rest, plain, type, position => by
    obtain ⟨here, below⟩ := Bool.or_eq_false_iff.1 plain
    exact .item position (isRelative_toTree names item here type)
      (isRelative_treeItems names rest below type (position + 1))
termination_by structural items => items

theorem isRelative_treeEntries (names : table.HasNames) : (entries : List (Value × Value)) →
    entriesContain hasOddKey entries = false → (key item : FieldType) → (position : Nat) →
    IsRelative fun path => treeEntries table entries key item path position
  | [], _, _, _, _ => .ok []
  | (keyValue, itemValue) :: rest, plain, key, item, position => by
    obtain ⟨here, below⟩ := Bool.or_eq_false_iff.1 plain
    obtain ⟨keyPlain, itemPlain⟩ := Bool.or_eq_false_iff.1 here
    exact .entry position (isRelative_toTree names keyValue keyPlain key)
      (isRelative_toTree names itemValue itemPlain item)
      (isRelative_treeEntries names rest below key item (position + 1)) Prod.mk
termination_by structural entries => entries

theorem isRelative_treeFields (names : table.HasNames) : (fields : List (String × Value)) →
    fieldsContain hasOddKey fields = false →
    ∀ entry ∈ fields, ∀ type, IsRelative fun path => toTree table entry.2 type path
  | [], _ => by simp
  | (_, value) :: rest, plain => by
    obtain ⟨here, below⟩ := Bool.or_eq_false_iff.1 plain
    exact List.forall_mem_cons.2
      ⟨isRelative_toTree names value here, isRelative_treeFields names rest below⟩
termination_by structural fields => fields

theorem isRelative_treeElements (names : table.HasNames) : (items : List Value) →
    itemsContain hasOddKey items = false →
    ∀ convert ∈ treeElements table items, ∀ type, IsRelative (convert type)
  | [], _ => by simp [treeElements]
  | value :: rest, plain => by
    obtain ⟨here, below⟩ := Bool.or_eq_false_iff.1 plain
    exact List.forall_mem_cons.2
      ⟨isRelative_toTree names value here, isRelative_treeElements names rest below⟩
termination_by structural items => items

end

end Value

end WireSchema
