import WireSchema.Convert.Members
import WireSchema.Value
import WireSchema.Codec.Tree
import WireSchema.Proofs.Record
import WireSchema.Proofs.Schema.Names

/-! The trees of values. `HasTree` says which tree a value has at a type, without the paths that
errors carry and without the order in which things are checked. -/

namespace WireSchema

def Table.body? (table : Table) (name : String) : Option TypeBody :=
  (table.find? name).map TypeDef.body

theorem Table.HasNames.of_body? {table : Table} (names : table.HasNames) {name : String}
    {body : TypeBody} (known : table.body? name = some body) : body.HasNames := by
  obtain ⟨type, found, rfl⟩ := Option.map_eq_some_iff.1 known
  exact names.bodies type (find?_eq_some found).1

def keyedFrom : Nat → List α → Record α
  | _, [] => []
  | position, item :: rest => (tupleKey position, item) :: keyedFrom (position + 1) rest

theorem mapIdx_tupleKey (f : String → α → β) (items : List α) :
    (items.mapIdx fun position item => f (tupleKey position) item) =
      (keyedFrom 0 items).map fun entry => f entry.1 entry.2 := by
  suffices ∀ position, ((items.zipIdx position).map fun entry => f (tupleKey entry.2) entry.1) =
      (keyedFrom position items).map fun entry => f entry.1 entry.2 by
    rw [List.mapIdx_eq_zipIdx_map]
    exact this 0
  induction items with
  | nil => intro position; rfl
  | cons item rest ih =>
    intro position
    rw [List.zipIdx_cons, keyedFrom, List.map_cons, List.map_cons, ih]

theorem map_keyedFrom (change : α → β) (position : Nat) (items : List α) :
    (keyedFrom position items).map (fun entry => (entry.1, change entry.2)) =
      keyedFrom position (items.map change) := by
  induction items generalizing position with
  | nil => rfl
  | cons item rest ih => exact congrArg (_ :: ·) (ih (position + 1))

theorem map_snd_keyedFrom (position : Nat) (items : List α) :
    (keyedFrom position items).map Prod.snd = items := by
  induction items generalizing position with
  | nil => rfl
  | cons item rest ih => exact congrArg (item :: ·) (ih (position + 1))

theorem mem_of_get?_keyedFrom {position : Nat} {items : List α} {key : String} {item : α}
    (found : Record.get? (keyedFrom position items) key = some item) : item ∈ items := by
  rw [← map_snd_keyedFrom position items]
  exact List.mem_map_of_mem (Record.mem_of_get? found)

theorem get?_keyedFrom (position index : Nat) (items : List α) :
    Record.get? (keyedFrom position items) (tupleKey (position + index)) = items[index]? := by
  induction items generalizing position index with
  | nil => rfl
  | cons item rest ih =>
    rw [keyedFrom, Record.get?_cons]
    cases index with
    | zero => simp
    | succ index =>
      have other : tupleKey position ≠ tupleKey (position + (index + 1)) := fun same => by
        have := tupleKey_inj.1 same
        omega
      rw [if_neg other, List.getElem?_cons_succ, ← ih (position + 1) index, Nat.add_right_comm,
        Nat.add_assoc]

def HoldsFrom (record : Record α) (position : Nat) (items : List α) : Prop :=
  ∀ index, Record.get? record (tupleKey (position + index)) = items[index]?

theorem holdsFrom_keyedFrom (position : Nat) (items : List α) :
    HoldsFrom (keyedFrom position items) position items :=
  fun index => get?_keyedFrom position index items

namespace HoldsFrom

variable {record : Record α} {position : Nat} {item : α} {items : List α}

theorem first (holds : HoldsFrom record position (item :: items)) :
    Record.get? record (tupleKey position) = some item :=
  holds 0

theorem rest (holds : HoldsFrom record position (item :: items)) :
    HoldsFrom record (position + 1) items := by
  intro index
  have next : position + 1 + index = position + (index + 1) := by omega
  rw [next]
  exact holds (index + 1)

end HoldsFrom

def elementsFrom (position : Nat) (types : List FieldType) : List Field :=
  (keyedFrom position types).map fun entry => ⟨entry.1, entry.2⟩

theorem members_tuple (types : List FieldType) :
    (Shape.tuple types).members = elementsFrom 0 types :=
  mapIdx_tupleKey Field.mk types

namespace Value

mutual

inductive HasTree (table : Table) : Value → FieldType → Tree → Prop
  | bool (b : Bool) : HasTree table (.bool b) (.primitive .bool) (.bool b)
  | unsigned {width : Width} {n : Nat} (bound : width.containsNat n = true) :
      HasTree table (.unsigned n) (.primitive (.unsigned width)) (.unsigned n)
  | signed {width : Width} {i : Int} (bound : width.containsInt i = true) :
      HasTree table (.signed i) (.primitive (.signed width)) (.signed i)
  | single {x : Binary64} (exact : x.isNaN = true ∨ x.toSingle = x) :
      HasTree table (.float x) (.primitive .single) (.float x)
  | double (x : Binary64) : HasTree table (.float x) (.primitive .double) (.float x)
  | string (s : String) : HasTree table (.string s) (.primitive .string) (.string s)
  | bytes (b : List UInt8) : HasTree table (.bytes b) (.primitive .bytes) (.bytes b)
  | publicKey (key : PublicKey) :
      HasTree table (.publicKey key) (.primitive .publicKey) (.bytes key.bytes)
  | vec {values : List Value} {item : FieldType} {trees : List Tree}
      (items : HaveTrees table values item trees) :
      HasTree table (.list values) (.vec item) (.list trees)
  | array {values : List Value} {item : FieldType} {length : Nat} {trees : List Tree}
      (sized : values.length = length) (items : HaveTrees table values item trees) :
      HasTree table (.list values) (.array item length) (.list trees)
  | none (item : FieldType) : HasTree table (.option none) (.option item) (.option none)
  | some {value : Value} {item : FieldType} {tree : Tree} (inner : HasTree table value item tree) :
      HasTree table (.option (some value)) (.option item) (.option (some tree))
  | map {entries : List (Value × Value)} {key item : FieldType} {trees : List (Tree × Tree)}
      (pairs : PairsHaveTrees table entries key item trees) :
      HasTree table (.map entries) (.hashMap key item) (.map trees)
  | struct {name : String} {declared : List Field} {fields : Record Value} {trees : Record Tree}
      (known : table.body? name = some (.struct declared))
      (complete : ∀ key ∈ Record.keys fields, key ∈ declared.map Field.name)
      (members : MembersHaveTrees table fields declared trees) :
      HasTree table (.struct name fields) (.defined name) (.record trees)
  | enum {name kind : String} {variants : List Variant} {tag : UInt8} {variant : Variant}
      {payload : Payload Value} {trees : Record Tree}
      (known : table.body? name = some (.enum variants))
      (chosen : Convert.findVariant name variants kind = .ok (tag.toNat, variant))
      (carried : PayloadHasTrees table payload variant.shape trees) :
      HasTree table (.enum name kind tag payload) (.defined name) (.variant kind (.record trees))

inductive HaveTrees (table : Table) : List Value → FieldType → List Tree → Prop
  | nil {item : FieldType} : HaveTrees table [] item []
  | cons {value : Value} {values : List Value} {item : FieldType} {tree : Tree} {trees : List Tree}
      (first : HasTree table value item tree) (rest : HaveTrees table values item trees) :
      HaveTrees table (value :: values) item (tree :: trees)

inductive PairsHaveTrees (table : Table) :
    List (Value × Value) → FieldType → FieldType → List (Tree × Tree) → Prop
  | nil {key item : FieldType} : PairsHaveTrees table [] key item []
  | cons {entry : Value × Value} {entries : List (Value × Value)} {key item : FieldType}
      {pair : Tree × Tree} {pairs : List (Tree × Tree)} (first : HasTree table entry.1 key pair.1)
      (second : HasTree table entry.2 item pair.2)
      (rest : PairsHaveTrees table entries key item pairs) :
      PairsHaveTrees table (entry :: entries) key item (pair :: pairs)

/-- Members are looked up by name, and their trees stand in the order of declaration. -/
inductive MembersHaveTrees (table : Table) : Record Value → List Field → Record Tree → Prop
  | nil {fields : Record Value} : MembersHaveTrees table fields [] []
  | cons {fields : Record Value} {field : Field} {declared : List Field} {value : Value}
      {tree : Tree} {trees : Record Tree} (found : Record.get? fields field.name = some value)
      (first : HasTree table value field.type tree)
      (rest : MembersHaveTrees table fields declared trees) :
      MembersHaveTrees table fields (field :: declared) ((field.name, tree) :: trees)

inductive PayloadHasTrees (table : Table) : Payload Value → Shape → Record Tree → Prop
  | empty : PayloadHasTrees table .empty .empty []
  | named {fields : Record Value} {declared : List Field} {trees : Record Tree}
      (complete : ∀ key ∈ Record.keys fields, key ∈ declared.map Field.name)
      (members : MembersHaveTrees table fields declared trees) :
      PayloadHasTrees table (.named fields) (.named declared) trees
  | tuple {items : List Value} {types : List FieldType} {trees : Record Tree}
      (sized : types.length = items.length)
      (members : MembersHaveTrees table (keyedFrom 0 items) (Shape.tuple types).members trees) :
      PayloadHasTrees table (.tuple items) (.tuple types) trees

end

variable {table : Table}

theorem length_of_haveTrees {items : List Value} {type : FieldType} {trees : List Tree} :
    HaveTrees table items type trees → trees.length = items.length
  | .nil => rfl
  | .cons _ rest => congrArg Nat.succ (length_of_haveTrees rest)

theorem length_of_pairsHaveTrees {entries : List (Value × Value)} {key item : FieldType}
    {pairs : List (Tree × Tree)} :
    PairsHaveTrees table entries key item pairs → pairs.length = entries.length
  | .nil => rfl
  | .cons _ _ rest => congrArg Nat.succ (length_of_pairsHaveTrees rest)

theorem keys_of_membersHaveTrees {fields : Record Value} {declared : List Field}
    {trees : Record Tree} :
    MembersHaveTrees table fields declared trees → Record.keys trees = declared.map Field.name
  | .nil => rfl
  | .cons _ _ rest => congrArg (List.cons _) (keys_of_membersHaveTrees rest)

end Value

end WireSchema
