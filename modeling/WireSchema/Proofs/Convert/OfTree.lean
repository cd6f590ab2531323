import WireSchema.Proofs.Convert.Members
import WireSchema.Proofs.Convert.NormalForm
import WireSchema.Proofs.Floating.Widening

/-! Values of trees of values. Reading bytes gives a tree in normal form, down to the depth that
the budget allows; the value that it is converted to does not depend on that depth. -/

namespace WireSchema

open Outcome

theorem Binary64.same_refl (x : Binary64) : x.same x = true := by
  simp [same]

theorem Binary64.same_toSingle {x : Binary64} (exact : x.isNaN = true ∨ x.toSingle = x) :
    x.toSingle.same x = true := by
  rcases exact with nan | number
  · simp [same, nan, isNaN_toSingle nan]
  · rw [number]
    exact x.same_refl

theorem Binary64.toSingle_toSingle (x : Binary64) : x.toSingle.toSingle = x.toSingle :=
  toSingle_widen x.narrow

namespace Value

/-! ## Distinct keys -/

mutual

/-- Whether keys stand once in every record inside, as they do in ordered maps. -/
def hasDistinctKeys : Value → Bool
  | list items => itemsHaveDistinctKeys items
  | option (some value) => hasDistinctKeys value
  | map entries => entriesHaveDistinctKeys entries
  | struct _ fields => decide (Record.keys fields).Nodup && fieldsHaveDistinctKeys fields
  | enum _ _ _ (.named fields) =>
    decide (Record.keys fields).Nodup && fieldsHaveDistinctKeys fields
  | enum _ _ _ (.tuple items) => itemsHaveDistinctKeys items
  | _ => true
termination_by structural value => value

def itemsHaveDistinctKeys : List Value → Bool
  | [] => true
  | value :: rest => hasDistinctKeys value && itemsHaveDistinctKeys rest
termination_by structural items => items

def entriesHaveDistinctKeys : List (Value × Value) → Bool
  | [] => true
  | (key, value) :: rest =>
    hasDistinctKeys key && hasDistinctKeys value && entriesHaveDistinctKeys rest
termination_by structural entries => entries

def fieldsHaveDistinctKeys : List (String × Value) → Bool
  | [] => true
  | (_, value) :: rest => hasDistinctKeys value && fieldsHaveDistinctKeys rest
termination_by structural fields => fields

end

theorem itemsHaveDistinctKeys_eq_all (items : List Value) :
    itemsHaveDistinctKeys items = items.all hasDistinctKeys :=
  eq_all_of_cons rfl (fun _ _ => rfl) items

theorem fieldsHaveDistinctKeys_eq_all (fields : Record Value) :
    fieldsHaveDistinctKeys fields = fields.all fun field => field.2.hasDistinctKeys :=
  eq_all_of_cons rfl (fun _ _ => rfl) fields

theorem hasDistinctKeys_of_get? {fields : Record Value} {key : String} {value : Value}
    (distinct : fieldsHaveDistinctKeys fields = true)
    (found : Record.get? fields key = some value) :
    value.hasDistinctKeys = true := by
  rw [fieldsHaveDistinctKeys_eq_all] at distinct
  exact Record.test_of_get? distinct found

theorem fieldsHaveDistinctKeys_keyedFrom (position : Nat) (items : List Value) :
    fieldsHaveDistinctKeys (keyedFrom position items) = itemsHaveDistinctKeys items := by
  rw [fieldsHaveDistinctKeys_eq_all, itemsHaveDistinctKeys_eq_all,
    ← map_snd_keyedFrom position items, List.all_map, map_snd_keyedFrom]
  rfl

/-! ## Values at each type -/

variable {table : Table}

theorem ofTree_unsigned {width : Width} {n : Nat} (bound : width.containsNat n = true)
    (path : String) :
    ofTree table (.unsigned n) (.primitive (.unsigned width)) path = .ok (.unsigned n) := by
  have read : (Tree.unsigned n).toUnsigned width = .ok n := if_pos bound
  simp only [ofTree, ofLeaf, Primitive.valueOfTree, read]
  rfl

theorem ofTree_signed {width : Width} {i : Int} (bound : width.containsInt i = true)
    (path : String) :
    ofTree table (.signed i) (.primitive (.signed width)) path = .ok (.signed i) := by
  have read : (Tree.signed i).toSigned width = .ok i := if_pos bound
  simp only [ofTree, ofLeaf, Primitive.valueOfTree, read]
  rfl

theorem ofTree_publicKey (key : PublicKey) (path : String) :
    ofTree table (.bytes key.bytes) (.primitive .publicKey) path = .ok (.publicKey key) := by
  have size : PublicKey.ofBytes key.bytes = .ok key := dif_pos key.size
  simp only [ofTree, ofLeaf, Primitive.valueOfTree, Tree.toPublicKey, size]
  rfl

theorem ofTree_struct {name path : String} {declared : List Field}
    (known : table.body? name = some (.struct declared)) (trees : Record Tree) :
    ofTree table (.record trees) (.defined name) path =
      (Convert.members (ofFields table trees) path declared).map (Value.struct name) := by
  have body : Convert.definition table name path = .ok (.struct declared) :=
    Convert.definition_eq_ok.2 known
  -- The definition is stuck until it is known how many entries there are.
  match trees with
  | [] | [_] | _ :: _ :: _ =>
    simp only [ofTree, body]
    rfl

def carry (shape : Shape) (entries : Record Value) : Payload Value :=
  match shape with
  | .empty => .empty
  | .named _ => .named entries
  | .tuple _ => .tuple (entries.map Prod.snd)

theorem ofPayload_record (shape : Shape) (trees : Record Tree) (path : String) :
    ofPayload table (.record trees) shape path =
      (Convert.members (ofFields table trees) path shape.members).map (carry shape) := by
  cases shape with
  | empty => rfl
  | named declared => rfl
  | tuple types => rfl

theorem ofTree_enum {name kind path : String} {variants : List Variant} {position : Nat}
    {variant : Variant} (known : table.body? name = some (.enum variants))
    (chosen : Convert.findVariant name variants kind = .ok (position, variant)) (payload : Tree) :
    ofTree table (.variant kind payload) (.defined name) path =
      (ofPayload table payload variant.shape (Convert.atField path kind)).map
        (Value.enum name kind (Convert.tagOf position)) := by
  have body : Convert.definition table name path = .ok (.enum variants) :=
    Convert.definition_eq_ok.2 known
  simp only [Tree.variant, ofTree, body, chosen, bind, Except.bind]
  rfl

/-! ## Values of normal forms -/

/-- The value that a tree has at a type is found again, however many names were followed when the
tree was put into normal form. -/
def Returns (table : Table) (value : Value) (type : FieldType) (tree : Tree) : Prop :=
  ∀ budget path, ∃ value',
    ofTree table (normalTo (table.types.map TypeDef.layout) budget type tree) type path =
      .ok value' ∧ value'.same value = true

def MemberReturns (table : Table) (fields : Record Value) (field : Field) (entry : String × Tree) :
    Prop :=
  entry.1 = field.name ∧ ∃ value, Record.get? fields field.name = some value ∧
    Returns table value field.type entry.2

def SameMember (fields : Record Value) (field : Field) (entry : String × Value) : Prop :=
  entry.1 = field.name ∧ ∃ value, Record.get? fields field.name = some value ∧
    entry.2.same value = true

theorem keys_of_memberReturns {fields : Record Value} {declared : List Field} {trees : Record Tree}
    (each : List.Forall₂ (MemberReturns table fields) declared trees) :
    Record.keys trees = declared.map Field.name :=
  Convert.keys_eq_names each fun _ _ => And.left

theorem keys_membersTo {registry : Registry} {budget : Nat} {declared : List Field}
    {trees : Record Tree} (keys : Record.keys trees = declared.map Field.name) :
    Record.keys (membersTo registry budget declared trees) = declared.map Field.name := by
  induction declared generalizing trees with
  | nil => rfl
  | cons field rest ih =>
    cases trees with
    | nil => cases keys
    | cons entry others =>
      obtain ⟨named, remaining⟩ := List.cons.inj keys
      exact congrArg (field.name :: ·) (ih remaining)

theorem members_of_memberReturns {fields : Record Value} {declared : List Field}
    {trees : Record Tree} (each : List.Forall₂ (MemberReturns table fields) declared trees)
    (distinct : (declared.map Field.name).Nodup) (budget : Nat) (path : String) :
    ∃ entries,
      Convert.members
        (ofFields table (membersTo (table.types.map TypeDef.layout) budget declared trees)) path
        declared = .ok entries ∧
      List.Forall₂ (SameMember fields) declared entries := by
  suffices ∀ record : Record Tree,
      (∀ entry ∈ membersTo (table.types.map TypeDef.layout) budget declared trees,
        Record.get? record entry.1 = some entry.2) →
      ∃ entries, Convert.members (ofFields table record) path declared = .ok entries ∧
        List.Forall₂ (SameMember fields) declared entries by
    refine this _ fun entry member => Record.get?_of_mem ?_ member
    rwa [keys_membersTo (keys_of_memberReturns each)]
  clear distinct
  intro record agrees
  induction each with
  | nil => exact ⟨[], rfl, .nil⟩
  | @cons field entry declared trees first _ ih =>
    obtain ⟨named, value, found, returns⟩ := first
    obtain ⟨here, below⟩ := List.forall_mem_cons.1 agrees
    obtain ⟨entries, made, same⟩ := ih below
    obtain ⟨value', converted, alike⟩ := returns budget (Convert.atField path field.name)
    refine ⟨(field.name, value') :: entries, ?_, .cons ⟨rfl, value, found, alike⟩ same⟩
    rw [Convert.members, get?_ofFields, here, Option.map_some]
    simp only [converted, made]
    rfl

theorem sameFields_of_sameMembers {fields : Record Value} {declared : List Field}
    {entries : Record Value} (each : List.Forall₂ (SameMember fields) declared entries) :
    sameFields Binary64.same entries fields = true := by
  induction each with
  | nil => rfl
  | @cons field entry declared entries first _ ih =>
    obtain ⟨key, value'⟩ := entry
    obtain ⟨named, value, found, alike⟩ := first
    simp only at named alike
    rw [sameFields, named, found]
    exact Bool.and_eq_true_iff.2 ⟨alike, ih⟩

/-- As many fields as there are declared members, none of them twice. -/
theorem length_eq_of_found {fields : Record Value} {declared : List Field} {entries : List β}
    (each : List.Forall₂ (fun field _ => ∃ value, Record.get? fields field.name = some value)
      declared entries)
    (distinct : (Record.keys fields).Nodup) (unique : (declared.map Field.name).Nodup)
    (complete : ∀ key ∈ Record.keys fields, key ∈ declared.map Field.name) :
    entries.length = fields.length := by
  have found : ∀ name ∈ declared.map Field.name, name ∈ Record.keys fields := by
    clear unique complete
    induction each with
    | nil => simp
    | cons first _ ih =>
      obtain ⟨value, here⟩ := first
      exact List.forall_mem_cons.2 ⟨List.mem_map_of_mem (Record.mem_of_get? here), ih⟩
  rw [Record.length_eq_of_keys distinct unique complete found, List.length_map, each.length_eq]

theorem length_of_sameMembers {fields : Record Value} {declared : List Field}
    {entries : Record Value} (each : List.Forall₂ (SameMember fields) declared entries)
    (distinct : (Record.keys fields).Nodup) (unique : (declared.map Field.name).Nodup)
    (complete : ∀ key ∈ Record.keys fields, key ∈ declared.map Field.name) :
    entries.length = fields.length :=
  length_eq_of_found (each.imp fun _ _ member => member.2.imp fun _ => And.left) distinct unique
    complete

theorem sameItems_of_sameMembers {fields : Record Value} {items : List Value}
    {types : List FieldType} {position : Nat} {entries : Record Value}
    (each : List.Forall₂ (SameMember fields) (elementsFrom position types) entries)
    (sized : types.length = items.length) (holds : HoldsFrom fields position items) :
    sameItems Binary64.same (entries.map Prod.snd) items = true := by
  induction types generalizing items position entries with
  | nil =>
    cases items with
    | nil =>
      cases each
      rfl
    | cons item others => cases sized
  | cons type rest ih =>
    cases items with
    | nil => cases sized
    | cons item others =>
      cases each with
      | cons first tail =>
        obtain ⟨-, value, here, alike⟩ := first
        obtain rfl : item = value := Option.some.inj (holds.first.symm.trans here)
        exact Bool.and_eq_true_iff.2 ⟨alike, ih tail (Nat.succ.inj sized) holds.rest⟩

/-- Most primitive values have a tree that is in normal form. -/
theorem returns_of_fixed {p : Primitive} {value : Value} {tree : Tree}
    (fixed : Codec.normalPrimitive p tree = tree)
    (made : ∀ path, ofTree table tree (.primitive p) path = .ok value)
    (alike : value.same value = true) : Returns table value (.primitive p) tree := by
  intro budget path
  refine ⟨value, ?_, alike⟩
  obtain whole | normal := normalTo_primitive budget p tree
  · rw [whole, made]
  · rw [normal, fixed, made]

theorem returns_single {x : Binary64} (exact : x.isNaN = true ∨ x.toSingle = x) :
    Returns table (.float x) (.primitive .single) (.float x) := by
  intro budget path
  refine ⟨.float x.toSingle, ?_, Binary64.same_toSingle exact⟩
  obtain whole | narrowed := normalTo_primitive budget .single (.float x)
  · rw [whole]
    rfl
  · rw [narrowed]
    exact congrArg (Except.ok ∘ Value.float) x.toSingle_toSingle

theorem returns_struct {name : String} {declared : List Field} {fields : Record Value}
    {trees : Record Tree} (known : table.body? name = some (.struct declared))
    (unique : (declared.map Field.name).Nodup)
    (complete : ∀ key ∈ Record.keys fields, key ∈ declared.map Field.name)
    (distinct : (Record.keys fields).Nodup)
    (each : List.Forall₂ (MemberReturns table fields) declared trees) :
    Returns table (.struct name fields) (.defined name) (.record trees) := by
  intro budget path
  obtain ⟨entries, made, same⟩ := members_of_memberReturns each unique (budget - 1) path
  refine ⟨.struct name entries, ?_, ?_⟩
  · rw [normalTo_struct known unique (keys_of_memberReturns each), ofTree_struct known, made]
    rfl
  · have counted := length_of_sameMembers same distinct unique complete
    simp only [Value.same, sameBy, counted, sameFields_of_sameMembers same, beq_self_eq_true,
      Bool.and_self]

/-- What is needed of a payload is that it is the same again. -/
theorem returns_enum {name kind : String} {variants : List Variant} {tag : UInt8}
    {variant : Variant} {payload : Payload Value} {fields : Record Value} {trees : Record Tree}
    (known : table.body? name = some (.enum variants))
    (chosen : Convert.findVariant name variants kind = .ok (tag.toNat, variant))
    (unique : (variant.shape.members.map Field.name).Nodup)
    (each : List.Forall₂ (MemberReturns table fields) variant.shape.members trees)
    (alike : ∀ entries, List.Forall₂ (SameMember fields) variant.shape.members entries →
      (Value.enum name kind tag (carry variant.shape entries)).same
        (.enum name kind tag payload) = true) :
    Returns table (.enum name kind tag payload) (.defined name)
      (.variant kind (.record trees)) := by
  intro budget path
  obtain ⟨entries, made, same⟩ :=
    members_of_memberReturns each unique (budget - 1) (Convert.atField path kind)
  refine ⟨_, ?_, alike entries same⟩
  rw [normalTo_enum known (Convert.findVariant_eq_ok.1 chosen).2 unique
    (keys_of_memberReturns each), ofTree_enum known chosen, ofPayload_record, made, Convert.tagOf,
    UInt8.ofNat_toNat]
  rfl

def ItemsReturn (table : Table) (items : List Value) (type : FieldType) (trees : List Tree) :
    Prop :=
  ∀ budget path position, ∃ items',
    ofItems table (trees.map (normalTo (table.types.map TypeDef.layout) budget type)) type path
      position = .ok items' ∧ sameItems Binary64.same items' items = true

mutual

theorem returns_of_hasTree (names : table.HasNames) {value : Value} {type : FieldType}
    {tree : Tree} :
    HasTree table value type tree → value.hasDistinctKeys = true → Returns table value type tree
  | .bool b, _ => returns_of_fixed rfl (fun _ => rfl) (beq_self_eq_true b)
  | .unsigned bound, _ => returns_of_fixed rfl (ofTree_unsigned bound) (beq_self_eq_true _)
  | .signed bound, _ => returns_of_fixed rfl (ofTree_signed bound) (beq_self_eq_true _)
  | .single exact, _ => returns_single exact
  | .double x, _ => returns_of_fixed rfl (fun _ => rfl) x.same_refl
  | .string s, _ => returns_of_fixed rfl (fun _ => rfl) (beq_self_eq_true s)
  | .bytes b, _ => returns_of_fixed rfl (fun _ => rfl) (beq_self_eq_true b)
  | .publicKey key, _ => returns_of_fixed rfl (ofTree_publicKey key) (beq_self_eq_true key)
  | .vec items, distinct => by
    intro budget path
    obtain ⟨items', made, alike⟩ := itemsReturn_of_haveTrees names items distinct budget path 0
    rw [(normalTo_list budget _ _).1]
    exact ⟨.list items', map_eq_ok.2 ⟨items', made, rfl⟩, alike⟩
  | .array sized items, distinct => by
    intro budget path
    obtain ⟨items', made, alike⟩ := itemsReturn_of_haveTrees names items distinct budget path 0
    rw [(normalTo_list budget _ _).2]
    refine ⟨.list items', ?_, alike⟩
    simp only [ofTree, List.length_map, length_of_haveTrees items, if_pos sized]
    exact map_eq_ok.2 ⟨items', made, rfl⟩
  | .none item, _ => by
    intro budget path
    rw [normalTo_none]
    exact ⟨.option none, rfl, rfl⟩
  | .some inner, distinct => by
    intro budget path
    obtain ⟨value', made, alike⟩ := returns_of_hasTree names inner distinct budget path
    rw [normalTo_some]
    exact ⟨.option (some value'), map_eq_ok.2 ⟨value', made, rfl⟩, alike⟩
  | .map pairs, distinct => by
    intro budget path
    obtain ⟨entries', made, alike⟩ :=
      pairsReturn_of_pairsHaveTrees names pairs distinct budget path 0
    rw [normalTo_map]
    exact ⟨.map entries', map_eq_ok.2 ⟨entries', made, rfl⟩, alike⟩
  | .struct known complete members, distinct => by
    obtain ⟨keys, below⟩ := Bool.and_eq_true_iff.1 distinct
    exact returns_struct known (AreNames.distinct (names.of_body? known)) complete
      (of_decide_eq_true keys) (memberReturns_of_membersHaveTrees names members below)
  | .enum known chosen carried, distinct => by
    have unique := names.distinct_of_findVariant known chosen
    obtain ⟨fields, each, alike⟩ := payloadReturns_of_payloadHasTrees names carried distinct unique
    exact returns_enum known chosen unique each alike

theorem itemsReturn_of_haveTrees (names : table.HasNames) {items : List Value} {type : FieldType}
    {trees : List Tree} :
    HaveTrees table items type trees → itemsHaveDistinctKeys items = true →
      ItemsReturn table items type trees
  | .nil, _ => fun _ _ _ => ⟨[], rfl, rfl⟩
  | .cons first rest, distinct => by
    intro budget path position
    obtain ⟨here, below⟩ := Bool.and_eq_true_iff.1 distinct
    obtain ⟨value', made, alike⟩ :=
      returns_of_hasTree names first here budget (Convert.atIndex path position)
    obtain ⟨items', restMade, restAlike⟩ :=
      itemsReturn_of_haveTrees names rest below budget path (position + 1)
    refine ⟨value' :: items', ?_, Bool.and_eq_true_iff.2 ⟨alike, restAlike⟩⟩
    exact bind_eq_ok.2 ⟨value', made, bind_eq_ok.2 ⟨items', restMade, rfl⟩⟩

theorem pairsReturn_of_pairsHaveTrees (names : table.HasNames) {entries : List (Value × Value)}
    {key item : FieldType} {pairs : List (Tree × Tree)} :
    PairsHaveTrees table entries key item pairs → entriesHaveDistinctKeys entries = true →
      ∀ budget path position, ∃ entries',
        ofEntries table (pairs.map fun pair =>
          (normalTo (table.types.map TypeDef.layout) budget key pair.1,
            normalTo (table.types.map TypeDef.layout) budget item pair.2)) key item path position =
          .ok entries' ∧ sameEntries Binary64.same entries' entries = true
  | .nil, _ => fun _ _ _ => ⟨[], rfl, rfl⟩
  | .cons first second rest, distinct => by
    intro budget path position
    obtain ⟨both, below⟩ := Bool.and_eq_true_iff.1 distinct
    obtain ⟨keyDistinct, itemDistinct⟩ := Bool.and_eq_true_iff.1 both
    obtain ⟨key', keyMade, keyAlike⟩ :=
      returns_of_hasTree names first keyDistinct budget (Convert.atIndex path position)
    obtain ⟨item', itemMade, itemAlike⟩ :=
      returns_of_hasTree names second itemDistinct budget (Convert.atIndex path position)
    obtain ⟨entries', restMade, restAlike⟩ :=
      pairsReturn_of_pairsHaveTrees names rest below budget path (position + 1)
    refine ⟨(key', item') :: entries', ?_, ?_⟩
    · exact bind_eq_ok.2 ⟨key', keyMade, bind_eq_ok.2 ⟨item', itemMade,
        bind_eq_ok.2 ⟨entries', restMade, rfl⟩⟩⟩
    · exact Bool.and_eq_true_iff.2 ⟨Bool.and_eq_true_iff.2 ⟨keyAlike, itemAlike⟩, restAlike⟩

theorem memberReturns_of_membersHaveTrees (names : table.HasNames) {fields : Record Value}
    {declared : List Field} {trees : Record Tree} :
    MembersHaveTrees table fields declared trees → fieldsHaveDistinctKeys fields = true →
      List.Forall₂ (MemberReturns table fields) declared trees
  | .nil, _ => .nil
  | .cons found first rest, distinct =>
    .cons ⟨rfl, _, found, returns_of_hasTree names first (hasDistinctKeys_of_get? distinct found)⟩
      (memberReturns_of_membersHaveTrees names rest distinct)

theorem payloadReturns_of_payloadHasTrees (names : table.HasNames) {payload : Payload Value}
    {shape : Shape} {trees : Record Tree} {name kind : String} {tag : UInt8} :
    PayloadHasTrees table payload shape trees →
      (Value.enum name kind tag payload).hasDistinctKeys = true →
      (shape.members.map Field.name).Nodup →
      ∃ fields, List.Forall₂ (MemberReturns table fields) shape.members trees ∧
        ∀ entries, List.Forall₂ (SameMember fields) shape.members entries →
          (Value.enum name kind tag (carry shape entries)).same (.enum name kind tag payload) = true
  | .empty, _, _ => ⟨[], .nil, fun _ _ => by simp [carry, same, sameBy]⟩
  | @PayloadHasTrees.named _ fields _ _ complete members, distinct, unique => by
    obtain ⟨keys, below⟩ := Bool.and_eq_true_iff.1 distinct
    refine ⟨fields, memberReturns_of_membersHaveTrees names members below, fun entries alike => ?_⟩
    have counted := length_of_sameMembers alike (of_decide_eq_true keys) unique complete
    simp only [carry, same, sameBy, counted, sameFields_of_sameMembers alike, beq_self_eq_true,
      Bool.and_self]
  | @PayloadHasTrees.tuple _ items types _ sized members, distinct, unique => by
    refine ⟨keyedFrom 0 items, memberReturns_of_membersHaveTrees names members
      ((fieldsHaveDistinctKeys_keyedFrom 0 _).trans distinct), fun entries alike => ?_⟩
    rw [members_tuple] at alike
    have items := sameItems_of_sameMembers alike sized (holdsFrom_keyedFrom 0 items)
    simp only [carry, same, sameBy, items, beq_self_eq_true, Bool.and_self]

end

end Value

end WireSchema
