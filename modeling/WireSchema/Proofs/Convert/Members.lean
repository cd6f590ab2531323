import WireSchema.Convert.OfTree
import WireSchema.Convert.ToTree
import WireSchema.Proofs.Convert.HasTree
import WireSchema.Proofs.Outcome

/-! Parts of the conversions: the checks of declarations, the members of records and the payloads
of variants. Each is described by when it succeeds and what it then gives. -/

namespace WireSchema

open Outcome

namespace Convert

theorem definition_eq_ok {table : Table} {name path : String} {body : TypeBody} :
    definition table name path = .ok body ↔ table.body? name = some body := by
  rw [definition, Table.body?]
  cases table.find? name with
  | none => simp [mismatch]
  | some type => simp

theorem checkDeclared_eq_ok {declared : List Field} {keys : List String} {path : String} :
    checkDeclared declared keys path = .ok () ↔ ∀ key ∈ keys, key ∈ declared.map Field.name := by
  unfold checkDeclared
  split
  next key found =>
    have undeclared := List.find?_some found
    have member := List.mem_of_find?_eq_some found
    simp only [mismatch, reduceCtorEq, false_iff]
    intro complete
    obtain ⟨field, fieldMember, same⟩ := List.mem_map.1 (complete key member)
    simp only [Bool.not_eq_true', List.any_eq_false, decide_eq_true_eq] at undeclared
    exact undeclared field fieldMember same
  next absent =>
    simp only [true_iff]
    intro key member
    have declaredKey := List.find?_eq_none.1 absent key member
    simp only [Bool.not_eq_true', Bool.not_eq_false, List.any_eq_true, decide_eq_true_eq]
      at declaredKey
    exact List.mem_map.2 declaredKey

def Gives (converters : Record (Converter β)) (path : String) (field : Field)
    (entry : String × β) : Prop :=
  entry.1 = field.name ∧ ∃ convert, Record.get? converters field.name = some convert ∧
    convert field.type (atField path field.name) = .ok entry.2

theorem members_eq_ok {converters : Record (Converter β)} {path : String} {declared : List Field}
    {entries : List (String × β)} :
    members converters path declared = .ok entries ↔
      List.Forall₂ (Gives converters path) declared entries := by
  induction declared generalizing entries with
  | nil => cases entries <;> simp [members]
  | cons field rest ih =>
    rw [members]
    constructor
    · intro made
      cases found : Record.get? converters field.name with
      | none =>
        rw [found] at made
        cases made
      | some convert =>
        rw [found] at made
        obtain ⟨value, first, tail⟩ := bind_eq_ok.1 made
        obtain ⟨others, restMade, done⟩ := bind_eq_ok.1 tail
        rw [← pure_eq_ok.1 done]
        exact .cons ⟨rfl, convert, found, first⟩ (ih.1 restMade)
    · intro all
      cases all with
      | cons first tail =>
        obtain ⟨named, convert, found, made⟩ := first
        rw [found]
        refine bind_eq_ok.2 ⟨_, made, bind_eq_ok.2 ⟨_, ih.2 tail, ?_⟩⟩
        rw [← named]
        rfl

theorem exists_members {converters : Record (Converter β)} {path : String}
    {declared : List Field} : (∃ entries, members converters path declared = .ok entries) ↔
      ∀ field ∈ declared, ∃ convert, Record.get? converters field.name = some convert ∧
        ∃ value, convert field.type (atField path field.name) = .ok value := by
  induction declared with
  | nil => simp [members]
  | cons field rest ih =>
    rw [List.forall_mem_cons, ← ih]
    constructor
    · rintro ⟨entries, made⟩
      cases members_eq_ok.1 made with
      | @cons _ entry _ entries gives below =>
        obtain ⟨-, convert, found, converted⟩ := gives
        exact ⟨⟨convert, found, entry.2, converted⟩, entries, members_eq_ok.2 below⟩
    · rintro ⟨⟨convert, found, value, converted⟩, entries, made⟩
      exact ⟨(field.name, value) :: entries,
        members_eq_ok.2 (.cons ⟨rfl, convert, found, converted⟩ (members_eq_ok.1 made))⟩

/-- Elements are converted as members under their keys. -/
theorem members_elementsFrom {record : Record (Converter β)} {path : String} {position : Nat}
    {types : List FieldType} {converters : List (Converter β)}
    (sized : types.length = converters.length) (holds : HoldsFrom record position converters) :
    members record path (elementsFrom position types) =
      (elements path position types converters).map (keyedFrom position) := by
  induction types generalizing position converters with
  | nil =>
    cases converters with
    | nil => rfl
    | cons convert others => cases sized
  | cons type rest ih =>
    cases converters with
    | nil => cases sized
    | cons convert others =>
      have below := ih (Nat.succ.inj sized) holds.rest
      have unfolded : elementsFrom position (type :: rest) =
        ⟨tupleKey position, type⟩ :: elementsFrom (position + 1) rest := rfl
      rw [unfolded, members]
      simp only [holds.first, elements, below]
      cases convert type (atField path (tupleKey position)) with
      | error error => rfl
      | ok value =>
        cases elements path (position + 1) rest others <;> rfl

theorem keys_eq_names {relation : Field → String × α → Prop} {declared : List Field}
    {entries : Record α} (each : List.Forall₂ relation declared entries)
    (named : ∀ field entry, relation field entry → entry.1 = field.name) :
    Record.keys entries = declared.map Field.name := by
  induction each with
  | nil => rfl
  | cons first _ ih => exact congrArg₂ List.cons (named _ _ first) ih

theorem checkArity_eq_ok {types : List FieldType} {length : Nat} {path : String} :
    checkArity types length path = .ok () ↔ types.length = length := by
  unfold checkArity
  split
  next same => simp [same]
  next other => simp [mismatch, other]

theorem findVariant_eq_ok {enumName kind : String} {variants : List Variant}
    {position : Nat} {variant : Variant} :
    findVariant enumName variants kind = .ok (position, variant) ↔
      variants.findIdx? (fun variant => variant.name = kind) = some position ∧
        variants.find? (fun variant => variant.name = kind) = some variant := by
  rw [findVariant]
  cases variants.findIdx? fun variant => variant.name = kind with
  | none => simp
  | some index =>
    cases variants.find? fun variant => variant.name = kind with
    | none => simp
    | some other => simp

/-- What is found under a kind is declared with the kind as its name. -/
theorem mem_of_findVariant {enumName kind : String} {variants : List Variant} {position : Nat}
    {variant : Variant} (chosen : findVariant enumName variants kind = .ok (position, variant)) :
    variant ∈ variants ∧ variant.name = kind := by
  have found := (findVariant_eq_ok.1 chosen).2
  exact ⟨List.mem_of_find?_eq_some found, by simpa using List.find?_some found⟩

end Convert

/-- The members of a variant that is found have distinct keys. -/
theorem Table.HasNames.distinct_of_findVariant {table : Table} (names : table.HasNames)
    {name kind : String} {variants : List Variant}
    (known : table.body? name = some (.enum variants)) {position : Nat} {variant : Variant}
    (chosen : Convert.findVariant name variants kind = .ok (position, variant)) :
    (variant.shape.members.map Field.name).Nodup := by
  obtain ⟨-, -, shapes⟩ := names.of_body? known
  exact (shapes variant (Convert.mem_of_findVariant chosen).1).distinct_members

namespace Value

variable {table : Table}

theorem treeFields_eq_map (fields : Record Value) :
    treeFields table fields = fields.map fun entry => (entry.1, toTree table entry.2) :=
  eq_map_of_cons rfl (fun _ _ => rfl) fields

theorem get?_treeFields (fields : Record Value) (key : String) :
    Record.get? (treeFields table fields) key = (Record.get? fields key).map (toTree table) := by
  rw [treeFields_eq_map, Record.get?_map]

theorem keys_treeFields (fields : Record Value) :
    Record.keys (treeFields table fields) = Record.keys fields := by
  rw [treeFields_eq_map, Record.keys_map]

theorem treeElements_eq_map (items : List Value) :
    treeElements table items = items.map (toTree table) :=
  eq_map_of_cons rfl (fun _ _ => rfl) items

theorem length_treeElements (items : List Value) :
    (treeElements table items).length = items.length := by
  rw [treeElements_eq_map, List.length_map]

theorem treeFields_keyedFrom (position : Nat) (items : List Value) :
    treeFields table (keyedFrom position items) =
      keyedFrom position (treeElements table items) := by
  rw [treeFields_eq_map, treeElements_eq_map, map_keyedFrom]

theorem treeMembers_tuple {items : List Value} {types : List FieldType} (path : String)
    (sized : types.length = items.length) :
    Convert.members (treeFields table (keyedFrom 0 items)) path (elementsFrom 0 types) =
      (Convert.elements path 0 types (treeElements table items)).map (keyedFrom 0) := by
  have counted := sized.trans (@length_treeElements table items).symm
  rw [treeFields_keyedFrom, Convert.members_elementsFrom counted (holdsFrom_keyedFrom 0 _)]

theorem ofFields_eq_map (trees : Record Tree) :
    ofFields table trees = trees.map fun entry => (entry.1, ofTree table entry.2) :=
  eq_map_of_cons rfl (fun _ _ => rfl) trees

theorem get?_ofFields (trees : Record Tree) (key : String) :
    Record.get? (ofFields table trees) key = (Record.get? trees key).map (ofTree table) := by
  rw [ofFields_eq_map, Record.get?_map]

/-! ## Variants -/

theorem checkVariant_eq_ok {name kind path : String} {variants : List Variant} {tag : UInt8}
    {variant : Variant} :
    checkVariant name variants kind tag path = .ok variant ↔
      Convert.findVariant name variants kind = .ok (tag.toNat, variant) := by
  rw [checkVariant, bind_eq_ok]
  constructor
  · rintro ⟨⟨position, found⟩, chosen, rest⟩
    simp only at rest
    split at rest
    next same =>
      cases rest
      rw [same]
      exact chosen
    next => cases rest
  · intro chosen
    exact ⟨_, chosen, if_pos rfl⟩

theorem treeOfFields_eq_ok {declared : List Field} {converters : Record (Converter Tree)}
    {path : String} {tree : Tree} :
    treeOfFields declared converters path = .ok tree ↔ ∃ trees,
      (∀ key ∈ Record.keys converters, key ∈ declared.map Field.name) ∧
        Convert.members converters path declared = .ok trees ∧ tree = .record trees := by
  rw [treeOfFields, then_eq_ok, Convert.checkDeclared_eq_ok, bind_eq_ok]
  constructor
  · rintro ⟨complete, trees, made, done⟩
    exact ⟨trees, complete, made, (pure_eq_ok.1 done).symm⟩
  · rintro ⟨trees, complete, made, rfl⟩
    exact ⟨complete, trees, made, rfl⟩

theorem treeOfPayload_empty {shape : Shape} {keyed : Record (Converter Tree)} {path : String}
    {tree : Tree} : treeOfPayload shape .empty keyed path = .ok tree ↔
      shape = .empty ∧ tree = .record [] := by
  cases shape <;> simp [treeOfPayload, Convert.mismatch, eq_comm]

theorem treeOfPayload_named {shape : Shape} {fields : Record (Converter Tree)}
    {keyed : Record (Converter Tree)} {path : String} {tree : Tree} :
    treeOfPayload shape (.named fields) keyed path = .ok tree ↔
      ∃ declared, shape = .named declared ∧ treeOfFields declared keyed path = .ok tree := by
  cases shape <;> simp [treeOfPayload, Convert.mismatch]

theorem treeOfPayload_tuple {shape : Shape} {items : List (Converter Tree)}
    {keyed : Record (Converter Tree)} {path : String} {tree : Tree} :
    treeOfPayload shape (.tuple items) keyed path = .ok tree ↔
      ∃ types trees, shape = .tuple types ∧ types.length = items.length ∧
        Convert.elements path 0 types items = .ok trees ∧ tree = .record (keyedFrom 0 trees) := by
  cases shape with
  | empty => simp [treeOfPayload, Convert.mismatch]
  | named declared => simp [treeOfPayload, Convert.mismatch]
  | tuple types =>
    rw [treeOfPayload, then_eq_ok, Convert.checkArity_eq_ok, bind_eq_ok]
    constructor
    · rintro ⟨sized, trees, made, done⟩
      refine ⟨types, trees, rfl, sized, made, ?_⟩
      rw [← pure_eq_ok.1 done, mapIdx_tupleKey Prod.mk]
      simp
    · rintro ⟨types, trees, shape, sized, made, rfl⟩
      cases shape
      refine ⟨sized, trees, made, ?_⟩
      rw [mapIdx_tupleKey Prod.mk]
      exact congrArg (Except.ok ∘ Tree.record) (List.map_id _)

/-- The conversion of a value of an enum, which is written around what is made of its payload. -/
def convertEnum (table : Table) (carried : Payload Value → Shape → String → Convert β)
    (write : String → β → γ) (typeName kind : String) (tag : UInt8) (payload : Payload Value)
    (name path : String) : Convert γ := do
  match ← Convert.definition table name path with
  | .enum variants =>
    if typeName = name then
      let variant ← checkVariant name variants kind tag path
      let part ← carried payload variant.shape (Convert.atField path kind)
      return write kind part
    else (Value.enum typeName kind tag payload).notEnum name path
  | .struct _ => (Value.enum typeName kind tag payload).notStruct name path

theorem convertEnum_of_chosen {carried : Payload Value → Shape → String → Convert β}
    {write : String → β → γ} {name kind path : String} {tag : UInt8} {payload : Payload Value}
    {variants : List Variant} {variant : Variant}
    (known : table.body? name = some (.enum variants))
    (chosen : Convert.findVariant name variants kind = .ok (tag.toNat, variant)) :
    convertEnum table carried write name kind tag payload name path =
      (carried payload variant.shape (Convert.atField path kind)).map (write kind) := by
  have defined : Convert.definition table name path = .ok (.enum variants) :=
    Convert.definition_eq_ok.2 known
  have checked : checkVariant name variants kind tag path = .ok variant :=
    checkVariant_eq_ok.2 chosen
  simp only [convertEnum, defined, bind, Except.bind, if_true, checked]
  cases carried payload variant.shape (Convert.atField path kind) with
  | error error => rfl
  | ok part => rfl

theorem convertEnum_eq_ok {carried : Payload Value → Shape → String → Convert β}
    {write : String → β → γ} {typeName kind name path : String} {tag : UInt8}
    {payload : Payload Value} {result : γ} :
    convertEnum table carried write typeName kind tag payload name path = .ok result ↔
      typeName = name ∧ ∃ variants variant part,
        table.body? name = some (.enum variants) ∧
        Convert.findVariant name variants kind = .ok (tag.toNat, variant) ∧
        carried payload variant.shape (Convert.atField path kind) = .ok part ∧
        result = write kind part := by
  constructor
  · intro converted
    obtain ⟨body, defined, rest⟩ := bind_eq_ok.1 converted
    cases body with
    | struct declared => cases rest
    | enum variants =>
      simp only at rest
      split at rest
      next same =>
        obtain ⟨variant, checked, tail⟩ := bind_eq_ok.1 rest
        obtain ⟨part, made, done⟩ := bind_eq_ok.1 tail
        exact ⟨same, variants, variant, part, Convert.definition_eq_ok.1 defined,
          checkVariant_eq_ok.1 checked, made, (pure_eq_ok.1 done).symm⟩
      next => cases rest
  · rintro ⟨rfl, variants, variant, part, known, chosen, made, rfl⟩
    rw [convertEnum_of_chosen known chosen, made]
    rfl

def treeOfCarried (table : Table) (payload : Payload Value) (shape : Shape) (path : String) :
    Convert Tree :=
  match payload with
  | .empty => treeOfPayload shape .empty [] path
  | .named fields => treeOfPayload shape (.named []) (treeFields table fields) path
  | .tuple items => treeOfPayload shape (.tuple (treeElements table items)) [] path

/-- The conversion is stuck until the payload is known. -/
theorem toTree_enum (typeName kind : String) (tag : UInt8) (payload : Payload Value)
    (name path : String) :
    toTree table (.enum typeName kind tag payload) (.defined name) path =
      convertEnum table (treeOfCarried table) Tree.variant typeName kind tag payload name path := by
  cases payload <;> rfl

end Value

end WireSchema
