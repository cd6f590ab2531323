import WireSchema.Proofs.Convert.Mirrors
import WireSchema.Proofs.Convert.ToTree

/-! Values that come back from JSON. A value with finite floats has a JSON form wherever it stands,
and this form gives back what the value collapses to. -/

namespace WireSchema

open Outcome

namespace Value

variable {table : Table}

/-! ## Members -/

theorem jsonFields_eq_map (fields : Record Value) :
    jsonFields table fields = fields.map fun entry => (entry.1, toJson table entry.2) :=
  eq_map_of_cons rfl (fun _ _ => rfl) fields

theorem get?_jsonFields (fields : Record Value) (key : String) :
    Record.get? (jsonFields table fields) key = (Record.get? fields key).map (toJson table) := by
  rw [jsonFields_eq_map, Record.get?_map]

theorem fieldsContain_keyedFrom (test : Value → Bool) (position : Nat) (items : List Value) :
    fieldsContain test (keyedFrom position items) = itemsContain test items := by
  rw [fieldsContain_eq_any, itemsContain_eq_any, ← map_snd_keyedFrom position items, List.any_map,
    map_snd_keyedFrom]
  rfl

def MemberWritten (table : Table) (fields : Record Value) (field : Field)
    (entry : String × Json) : Prop :=
  entry.1 = field.name ∧ ∃ value, Record.get? fields field.name = some value ∧
    ∀ path, toJson table value field.type path = .ok entry.2

def MemberMirrors (table : Table) (fields : Record Value) (field : Field)
    (entry : String × Json × Value) : Prop :=
  entry.1 = field.name ∧ ∃ value, Record.get? fields field.name = some value ∧
    Mirrors table value field.type entry.2.1 entry.2.2

def jsonsOf (entries : Record (Json × Value)) : Record Json :=
  entries.map fun entry => (entry.1, entry.2.1)

def backsOf (entries : Record (Json × Value)) : Record Value :=
  entries.map fun entry => (entry.1, entry.2.2)

section

variable {fields : Record Value} {declared : List Field} {entries : Record (Json × Value)}

theorem members_written {jsons : Record Json}
    (each : List.Forall₂ (MemberWritten table fields) declared jsons) (path : String) :
    Convert.members (jsonFields table fields) path declared = .ok jsons := by
  refine Convert.members_eq_ok.2 (each.imp ?_)
  rintro field entry ⟨named, value, found, written⟩
  refine ⟨named, toJson table value, ?_, written _⟩
  rw [get?_jsonFields, found, Option.map_some]

theorem memberWritten_of_mirrors
    (each : List.Forall₂ (MemberMirrors table fields) declared entries) :
    List.Forall₂ (MemberWritten table fields) declared (jsonsOf entries) := by
  refine List.forall₂_map_right_iff.2 (each.imp ?_)
  rintro field entry ⟨named, value, found, mirrors⟩
  exact ⟨named, value, found, mirrors.written⟩

theorem keys_jsonsOf (each : List.Forall₂ (MemberMirrors table fields) declared entries) :
    Record.keys (jsonsOf entries) = declared.map Field.name :=
  Convert.keys_eq_names (memberWritten_of_mirrors each) fun _ _ => And.left

/-- Each member is found under its name, which is the only one of this name. -/
theorem members_read (each : List.Forall₂ (MemberMirrors table fields) declared entries)
    (unique : (declared.map Field.name).Nodup) (path : String) :
    Convert.membersOr (.option none) (ofJsonMembers table (jsonsOf entries)) path declared =
      .ok (backsOf entries) := by
  have distinct : (Record.keys (jsonsOf entries)).Nodup := keys_jsonsOf each ▸ unique
  have agrees : ∀ entry ∈ entries, Record.get? (jsonsOf entries) entry.1 = some entry.2.1 :=
    fun entry member => Record.get?_of_mem distinct (List.mem_map_of_mem member)
  have found : List.Forall₂ (fun entry field => Record.get? (jsonsOf entries) entry.1 =
      some entry.2.1 ∧ flip (MemberMirrors table fields) entry field) entries declared :=
    (List.forall₂_and_left _ _).2 ⟨agrees, each.flip⟩
  apply Convert.membersOr_of_members
  refine Convert.members_eq_ok.2 (List.forall₂_map_right_iff.2 (found.flip.imp ?_))
  rintro field entry ⟨here, named, value, -, mirrors⟩
  refine ⟨named, ofJson table entry.2.1, ?_, mirrors.read _⟩
  rw [get?_ofJsonMembers, ← named, here, Option.map_some]

theorem members_collapsed (each : List.Forall₂ (MemberMirrors table fields) declared entries)
    {floats : Binary64 → Binary64 → Bool} (reflexive : ∀ x, floats x x = true) :
    sameFields floats (backsOf entries) (collapseFields fields) = true := by
  induction each with
  | nil => rfl
  | @cons field entry declared entries first _ ih =>
    obtain ⟨named, value, found, mirrors⟩ := first
    have here : Record.get? (collapseFields fields) entry.1 = some value.collapse := by
      rw [get?_collapseFields, named, found, Option.map_some]
    simp only [backsOf, List.map_cons, sameFields, here]
    exact Bool.and_eq_true_iff.2 ⟨mirrors.agrees.collapsed floats reflexive, ih⟩

theorem members_faithful (each : List.Forall₂ (MemberMirrors table fields) declared entries)
    (same : sameFields Binary64.same (backsOf entries) fields = true) :
    ∀ field ∈ declared, ∀ value, Record.get? fields field.name = some value →
      value.contains isSomeOfNone = false := by
  induction each with
  | nil => simp
  | @cons field entry declared entries first _ ih =>
    obtain ⟨named, value, found, mirrors⟩ := first
    simp only [backsOf, List.map_cons, sameFields, named, found] at same
    obtain ⟨alike, below⟩ := Bool.and_eq_true_iff.1 same
    refine List.forall_mem_cons.2 ⟨fun other otherFound => ?_, ih below⟩
    rw [← Option.some.inj (found.symm.trans otherFound)]
    exact mirrors.agrees.faithful alike

/-- Members make up the fields that they are of, as all of those are declared. -/
theorem fieldsContain_of_members {test : Value → Bool}
    (complete : ∀ key ∈ Record.keys fields, key ∈ declared.map Field.name)
    (distinct : (Record.keys fields).Nodup)
    (each : ∀ field ∈ declared, ∀ value, Record.get? fields field.name = some value →
      value.contains test = false) : fieldsContain test fields = false := by
  rw [fieldsContain_eq_false]
  intro entry member
  obtain ⟨field, declaredField, named⟩ :=
    List.mem_map.1 (complete entry.1 (List.mem_map_of_mem member))
  have found := Record.get?_of_mem distinct member
  exact each field declaredField entry.2 (named ▸ found)

theorem length_backsOf (each : List.Forall₂ (MemberMirrors table fields) declared entries)
    (unique : (declared.map Field.name).Nodup)
    (complete : ∀ key ∈ Record.keys fields, key ∈ declared.map Field.name)
    (distinct : (Record.keys fields).Nodup) : (backsOf entries).length = fields.length := by
  have found := each.imp fun _ _ member => member.2.imp fun _ => And.left
  rw [backsOf, List.length_map, length_eq_of_found found distinct unique complete]

structure FieldsAgree (backs fields : Record Value) : Prop where
  sized : backs.length = (collapseFields fields).length
  collapsed : ∀ floats : Binary64 → Binary64 → Bool, (∀ x, floats x x = true) →
    sameFields floats backs (collapseFields fields) = true
  faithful : sameFields Binary64.same backs fields = true →
    fieldsContain isSomeOfNone fields = false

theorem fieldsAgree_of_members
    (each : List.Forall₂ (MemberMirrors table fields) declared entries)
    (unique : (declared.map Field.name).Nodup)
    (complete : ∀ key ∈ Record.keys fields, key ∈ declared.map Field.name)
    (distinct : (Record.keys fields).Nodup) : FieldsAgree (backsOf entries) fields where
  sized := by rw [length_backsOf each unique complete distinct, length_collapseFields]
  collapsed _ reflexive := members_collapsed each reflexive
  faithful same := fieldsContain_of_members complete distinct (members_faithful each same)

theorem FieldsAgree.struct {backs : Record Value} (agree : FieldsAgree backs fields)
    (name : String) : Agrees (.struct name backs) (.struct name fields) where
  collapsed floats reflexive := by
    simp only [collapse, sameBy, agree.sized, agree.collapsed floats reflexive, beq_self_eq_true,
      Bool.and_self]
  faithful same := agree.faithful (Bool.and_eq_true_iff.1 same).2

theorem FieldsAgree.enum {backs : Record Value} (agree : FieldsAgree backs fields)
    (name kind : String) (tag : UInt8) :
    Agrees (.enum name kind tag (.named backs)) (.enum name kind tag (.named fields)) where
  collapsed floats reflexive := by
    simp only [collapse, sameBy, agree.sized, agree.collapsed floats reflexive, beq_self_eq_true,
      Bool.and_self]
  faithful same := agree.faithful (Bool.and_eq_true_iff.1 same).2

end

structure ElementsMirror (table : Table) (items : List Value) (position : Nat)
    (types : List FieldType) (jsons : List Json) (backs : List Value) : Prop where
  written : ∀ path, Convert.elements path position types (jsonElements table items) = .ok jsons
  read : ∀ path, Convert.elements path position types (ofJsonElements table jsons) = .ok backs
  sized : jsons.length = types.length
  agrees : ItemsAgree backs items

theorem exists_elementsMirror {fields : Record Value} {items : List Value} {position : Nat}
    {types : List FieldType} {entries : Record (Json × Value)}
    (each : List.Forall₂ (MemberMirrors table fields) (elementsFrom position types) entries)
    (sized : types.length = items.length) (holds : HoldsFrom fields position items) :
    ∃ jsons backs, ElementsMirror table items position types jsons backs := by
  induction types generalizing items position entries with
  | nil =>
    cases items with
    | nil => exact ⟨[], [], fun _ => rfl, fun _ => rfl, rfl, itemsAgree_nil⟩
    | cons item others => cases sized
  | cons type rest ih =>
    cases items with
    | nil => cases sized
    | cons item others =>
      cases each with
      | @cons _ entry _ _ first tail =>
        obtain ⟨-, value, here, mirrors⟩ := first
        obtain rfl : item = value := Option.some.inj (holds.first.symm.trans here)
        obtain ⟨jsons, backs, below⟩ := ih tail (Nat.succ.inj sized) holds.rest
        refine ⟨entry.2.1 :: jsons, entry.2.2 :: backs, fun path => ?_, fun path => ?_,
          congrArg Nat.succ below.sized, .cons mirrors.agrees below.agrees⟩
        · exact bind_eq_ok.2 ⟨_, mirrors.written _, bind_eq_ok.2 ⟨_, below.written path, rfl⟩⟩
        · exact bind_eq_ok.2 ⟨_, mirrors.read _, bind_eq_ok.2 ⟨_, below.read path, rfl⟩⟩

theorem jsonElements_eq_map (items : List Value) :
    jsonElements table items = items.map (toJson table) :=
  eq_map_of_cons rfl (fun _ _ => rfl) items

theorem length_jsonElements (items : List Value) :
    (jsonElements table items).length = items.length := by
  rw [jsonElements_eq_map, List.length_map]

theorem jsonFields_keyedFrom (position : Nat) (items : List Value) :
    jsonFields table (keyedFrom position items) =
      keyedFrom position (jsonElements table items) := by
  rw [jsonFields_eq_map, jsonElements_eq_map, map_keyedFrom]

/-- Elements are members under their keys. -/
theorem jsonMembers_tuple {items : List Value} {types : List FieldType} (path : String)
    (sized : types.length = items.length) :
    Convert.members (jsonFields table (keyedFrom 0 items)) path (Shape.tuple types).members =
      (Convert.elements path 0 types (jsonElements table items)).map (keyedFrom 0) := by
  have counted := sized.trans (@length_jsonElements table items).symm
  rw [jsonFields_keyedFrom, members_tuple,
    Convert.members_elementsFrom counted (holdsFrom_keyedFrom 0 _)]

/-! ## Definitions -/

theorem toJson_struct {name : String} {declared : List Field}
    (known : table.body? name = some (.struct declared)) (fields : Record Value) (path : String) :
    toJson table (.struct name fields) (.defined name) path =
      (Convert.members (jsonFields table fields) path declared).map .object := by
  have defined : Convert.definition table name path = .ok (.struct declared) :=
    Convert.definition_eq_ok.2 known
  simp only [toJson, defined, if_true]
  rfl

theorem ofJson_struct {name : String} {declared : List Field}
    (known : table.body? name = some (.struct declared)) (members : Record Json) (path : String) :
    ofJson table (.object members) (.defined name) path =
      (Convert.membersOr (.option none) (ofJsonMembers table members) path declared).map
        (.struct name) := by
  have defined : Convert.definition table name path = .ok (.struct declared) :=
    Convert.definition_eq_ok.2 known
  simp only [ofJson, FieldType.core, defined]
  exact wrapped_zero _

theorem mirrors_struct {name : String} {declared : List Field} {fields : Record Value}
    {entries : Record (Json × Value)} (known : table.body? name = some (.struct declared))
    (unique : (declared.map Field.name).Nodup)
    (complete : ∀ key ∈ Record.keys fields, key ∈ declared.map Field.name)
    (distinct : (Record.keys fields).Nodup)
    (each : List.Forall₂ (MemberMirrors table fields) declared entries) :
    Mirrors table (.struct name fields) (.defined name) (.object (jsonsOf entries))
      (.struct name (backsOf entries)) := by
  refine ⟨fun path => ?_, by simp [collapse], fun path => ?_,
    (fieldsAgree_of_members each unique complete distinct).struct name⟩
  · rw [toJson_struct known, members_written (memberWritten_of_mirrors each)]
    rfl
  · rw [ofJson_struct known, members_read each unique]
    rfl

def jsonOfCarried (table : Table) (payload : Payload Value) (shape : Shape) (path : String) :
    Convert (Option Json) :=
  match payload with
  | .empty => jsonOfPayload shape .empty [] path
  | .named fields => jsonOfPayload shape (.named []) (jsonFields table fields) path
  | .tuple items => jsonOfPayload shape (.tuple (jsonElements table items)) [] path

theorem jsonOfCarried_named (fields : Record Value) (declared : List Field) (path : String) :
    jsonOfCarried table (.named fields) (.named declared) path =
      (Convert.members (jsonFields table fields) path declared).map fun jsons =>
        some (.object jsons) :=
  rfl

/-- The keys of elements do not show. -/
theorem jsonOfCarried_tuple {items : List Value} {types : List FieldType}
    (sized : types.length = items.length) (path : String) :
    jsonOfCarried table (.tuple items) (.tuple types) path =
      (Convert.members (jsonFields table (keyedFrom 0 items)) path (Shape.tuple types).members).map
        fun jsons => some (.array (jsons.map Prod.snd)) := by
  have counted := sized.trans (@length_jsonElements table items).symm
  rw [jsonMembers_tuple path sized]
  simp only [jsonOfCarried, jsonOfPayload, Convert.checkArity, if_pos counted]
  cases Convert.elements path 0 types (jsonElements table items) with
  | error error => rfl
  | ok jsons =>
    simp only [Except.map, map_snd_keyedFrom]
    rfl

theorem toJson_enum (typeName kind : String) (tag : UInt8) (payload : Payload Value)
    (name path : String) :
    toJson table (.enum typeName kind tag payload) (.defined name) path =
      convertEnum table (jsonOfCarried table) variantObject typeName kind tag payload name path := by
  cases payload <;> rfl

structure PayloadMirrors (table : Table) (payload : Payload Value) (shape : Shape)
    (body : Option Json) (back : Payload Value) : Prop where
  written : ∀ path, jsonOfCarried table payload shape path = .ok body
  read : ∀ path,
    (body.map (ofJsonBody table)).getD (payloadWithout "nothing") shape path = .ok back
  agrees : ∀ name kind tag, Agrees (.enum name kind tag back) (.enum name kind tag payload)

theorem payloadMirrors_empty : PayloadMirrors table .empty .empty none .empty := by
  refine ⟨fun _ => rfl, fun _ => rfl, fun name kind tag => ⟨fun _ _ => ?_, fun _ => rfl⟩⟩
  simp [collapse, sameBy]

theorem payloadMirrors_named {fields : Record Value} {declared : List Field}
    {entries : Record (Json × Value)} (unique : (declared.map Field.name).Nodup)
    (complete : ∀ key ∈ Record.keys fields, key ∈ declared.map Field.name)
    (distinct : (Record.keys fields).Nodup)
    (each : List.Forall₂ (MemberMirrors table fields) declared entries) :
    PayloadMirrors table (.named fields) (.named declared) (some (.object (jsonsOf entries)))
      (.named (backsOf entries)) where
  written path := bind_eq_ok.2 ⟨_, members_written (memberWritten_of_mirrors each) path, rfl⟩
  read path := map_eq_ok.2 ⟨_, members_read each unique path, rfl⟩
  agrees := (fieldsAgree_of_members each unique complete distinct).enum

theorem payloadMirrors_tuple {items backs : List Value} {types : List FieldType}
    {jsons : List Json} (sized : types.length = items.length)
    (each : ElementsMirror table items 0 types jsons backs) :
    PayloadMirrors table (.tuple items) (.tuple types) (some (.array jsons)) (.tuple backs) := by
  refine ⟨fun path => ?_, fun path => ?_, fun name kind tag => ⟨fun floats reflexive => ?_,
    fun same => ?_⟩⟩
  · have counted : types.length = (jsonElements table items).length := by
      rw [length_jsonElements, sized]
    exact then_eq_ok.2 ⟨Convert.checkArity_eq_ok.2 counted,
      bind_eq_ok.2 ⟨_, each.written path, rfl⟩⟩
  · exact then_eq_ok.2 ⟨Convert.checkArity_eq_ok.2 each.sized.symm,
      bind_eq_ok.2 ⟨_, each.read path, rfl⟩⟩
  · simp only [collapse, sameBy, each.agrees.collapsed floats reflexive, beq_self_eq_true,
      Bool.and_self]
  · exact each.agrees.faithful (Bool.and_eq_true_iff.1 same).2

theorem ofJson_enum_object {name : String} {variants : List Variant}
    (known : table.body? name = some (.enum variants)) (members : Record Json) (path : String) :
    ofJson table (.object members) (.defined name) path =
      kindOfMembers members path >>= fun kind =>
        enumOfBody name variants kind
          ((Record.get? members "value").map (ofJsonBody table)) path := by
  have defined : Convert.definition table name path = .ok (.enum variants) :=
    Convert.definition_eq_ok.2 known
  simp only [ofJson, FieldType.core, defined, get?_ofJsonBodies]
  exact wrapped_zero _

theorem ofJson_enum {name : String} {variants : List Variant}
    (known : table.body? name = some (.enum variants)) (kind : String) (body : Option Json)
    (path : String) :
    ofJson table (variantObject kind body) (.defined name) path =
      enumOfBody name variants kind (body.map (ofJsonBody table)) path := by
  have value : Record.get? (("kind", Json.string kind) ::
      (body.map fun json => ("value", json)).toList) "value" = body := by
    cases body with
    | none => rfl
    | some json => simp [Record.get?_cons]
  rw [variantObject, ofJson_enum_object known, value]
  rfl

theorem mirrors_enum {name kind : String} {variants : List Variant} {tag : UInt8}
    {variant : Variant} {payload back : Payload Value} {body : Option Json}
    (known : table.body? name = some (.enum variants))
    (chosen : Convert.findVariant name variants kind = .ok (tag.toNat, variant))
    (carried : PayloadMirrors table payload variant.shape body back) :
    Mirrors table (.enum name kind tag payload) (.defined name) (variantObject kind body)
      (.enum name kind tag back) := by
  refine ⟨fun path => ?_, ?_, fun path => ?_, carried.agrees name kind tag⟩
  · rw [toJson_enum]
    exact convertEnum_eq_ok.2 ⟨rfl, _, _, body, known, chosen, carried.written _, rfl⟩
  · cases payload <;> simp [variantObject, collapse]
  · rw [ofJson_enum known]
    refine bind_eq_ok.2 ⟨_, chosen, bind_eq_ok.2 ⟨back, carried.read _, ?_⟩⟩
    rw [Convert.tagOf, UInt8.ofNat_toNat]
    rfl

/- Follows the derivation of the tree. Distinct keys and finite floats go down from a value to its
parts, while the members of a struct stay in the whole record, where they are looked up. -/
mutual

theorem mirrors_of_hasTree (names : table.HasNames) {value : Value} {type : FieldType}
    {tree : Tree} : HasTree table value type tree → value.hasDistinctKeys = true →
      value.contains isNonFinite = false → ∃ json back, Mirrors table value type json back
  | .bool b, _, _ => ⟨.bool b, _, mirrors_primitive (fun _ => rfl) (fun _ => rfl) (by simp) rfl
      (by simp) fun _ _ => beq_self_eq_true b⟩
  | .unsigned bound, _, _ => (mirrors_unsigned bound).imp fun _ mirrors => ⟨_, mirrors⟩
  | .signed bound, _, _ => (mirrors_signed bound).imp fun _ mirrors => ⟨_, mirrors⟩
  | .single exact, _, finite =>
    (mirrors_single exact (isFinite_of_contains finite)).imp fun _ mirrors => ⟨_, mirrors⟩
  | .double _, _, finite => (mirrors_float (isFinite_of_contains finite) (fun _ => rfl)
      fun _ => rfl).imp fun _ mirrors => ⟨_, mirrors⟩
  | .string s, _, _ => ⟨.string s, _, mirrors_primitive (fun _ => rfl) (fun _ => rfl) (by simp) rfl
      (by simp) fun _ _ => beq_self_eq_true s⟩
  | .bytes b, _, _ => (mirrors_bytes b).imp fun _ mirrors => ⟨_, mirrors⟩
  | .publicKey key, _, _ => (mirrors_publicKey key).imp fun _ mirrors => ⟨_, mirrors⟩
  | .vec items, distinct, finite => by
    have below := (Bool.or_eq_false_iff.1 finite).2
    obtain ⟨jsons, backs, each⟩ := itemsMirror_of_haveTrees names items distinct below
    exact ⟨_, _, mirrors_vec each⟩
  | .array sized items, distinct, finite => by
    have below := (Bool.or_eq_false_iff.1 finite).2
    obtain ⟨jsons, backs, each⟩ := itemsMirror_of_haveTrees names items distinct below
    exact ⟨_, _, mirrors_array sized each⟩
  | .none item, _, _ => ⟨_, _, mirrors_none item⟩
  | .some inner, distinct, finite => by
    have below := (Bool.or_eq_false_iff.1 finite).2
    obtain ⟨json, back, mirrors⟩ := mirrors_of_hasTree names inner distinct below
    exact ⟨json, mirrors_some mirrors⟩
  | .map pairs, distinct, finite => by
    have below := (Bool.or_eq_false_iff.1 finite).2
    obtain ⟨jsons, backs, each⟩ := pairsMirror_of_pairsHaveTrees names pairs distinct below
    exact ⟨_, _, mirrors_map each⟩
  | .struct known complete members, distinct, finite => by
    obtain ⟨keys, inside⟩ := Bool.and_eq_true_iff.1 distinct
    have below := (Bool.or_eq_false_iff.1 finite).2
    obtain ⟨entries, each⟩ := memberMirrors_of_membersHaveTrees names members inside below
    exact ⟨_, _, mirrors_struct known (names.of_body? known).distinct complete
      (of_decide_eq_true keys) each⟩
  | .enum known chosen carried, distinct, finite => by
    obtain ⟨body, back, mirrors⟩ := payloadMirrors_of_payloadHasTrees names carried distinct finite
      (names.distinct_of_findVariant known chosen)
    exact ⟨_, _, mirrors_enum known chosen mirrors⟩

theorem itemsMirror_of_haveTrees (names : table.HasNames) {items : List Value} {type : FieldType}
    {trees : List Tree} : HaveTrees table items type trees → itemsHaveDistinctKeys items = true →
      itemsContain isNonFinite items = false →
      ∃ jsons backs, ItemsMirror table items type jsons backs
  | .nil, _, _ => ⟨[], [], fun _ _ => rfl, fun _ _ => rfl, rfl, itemsAgree_nil⟩
  | .cons first rest, distinct, finite => by
    obtain ⟨here, below⟩ := Bool.and_eq_true_iff.1 distinct
    obtain ⟨hereFinite, belowFinite⟩ := Bool.or_eq_false_iff.1 finite
    obtain ⟨json, back, mirrors⟩ := mirrors_of_hasTree names first here hereFinite
    obtain ⟨jsons, backs, each⟩ := itemsMirror_of_haveTrees names rest below belowFinite
    exact ⟨_, _, itemsMirror_cons mirrors each⟩

theorem pairsMirror_of_pairsHaveTrees (names : table.HasNames) {entries : List (Value × Value)}
    {key item : FieldType} {pairs : List (Tree × Tree)} :
    PairsHaveTrees table entries key item pairs → entriesHaveDistinctKeys entries = true →
      entriesContain isNonFinite entries = false →
      ∃ jsons backs, PairsMirror table entries key item jsons backs
  | .nil, _, _ => ⟨[], [], fun _ _ => rfl, fun _ _ => rfl, fun _ _ => rfl, fun _ => rfl⟩
  | .cons first second rest, distinct, finite => by
    obtain ⟨both, below⟩ := Bool.and_eq_true_iff.1 distinct
    obtain ⟨keyDistinct, itemDistinct⟩ := Bool.and_eq_true_iff.1 both
    obtain ⟨bothFinite, belowFinite⟩ := Bool.or_eq_false_iff.1 finite
    obtain ⟨keyFinite, itemFinite⟩ := Bool.or_eq_false_iff.1 bothFinite
    obtain ⟨_, keyBack, keyMirrors⟩ := mirrors_of_hasTree names first keyDistinct keyFinite
    obtain ⟨_, itemBack, itemMirrors⟩ := mirrors_of_hasTree names second itemDistinct itemFinite
    obtain ⟨_, backs, each⟩ := pairsMirror_of_pairsHaveTrees names rest below belowFinite
    exact ⟨_, (keyBack, itemBack) :: backs, pairsMirror_cons keyMirrors itemMirrors each⟩

theorem memberMirrors_of_membersHaveTrees (names : table.HasNames) {fields : Record Value}
    {declared : List Field} {trees : Record Tree} :
    MembersHaveTrees table fields declared trees → fieldsHaveDistinctKeys fields = true →
      fieldsContain isNonFinite fields = false →
      ∃ entries, List.Forall₂ (MemberMirrors table fields) declared entries
  | .nil, _, _ => ⟨[], .nil⟩
  | .cons found first rest, distinct, finite => by
    have here := hasDistinctKeys_of_get? distinct found
    have hereFinite := fieldsContain_eq_false.1 finite _ (Record.mem_of_get? found)
    obtain ⟨json, back, mirrors⟩ := mirrors_of_hasTree names first here hereFinite
    obtain ⟨entries, each⟩ := memberMirrors_of_membersHaveTrees names rest distinct finite
    exact ⟨(_, json, back) :: entries, .cons ⟨rfl, _, found, mirrors⟩ each⟩

theorem payloadMirrors_of_payloadHasTrees (names : table.HasNames) {name kind : String}
    {tag : UInt8} {payload : Payload Value} {shape : Shape} {trees : Record Tree} :
    PayloadHasTrees table payload shape trees →
      (Value.enum name kind tag payload).hasDistinctKeys = true →
      (Value.enum name kind tag payload).contains isNonFinite = false →
      (shape.members.map Field.name).Nodup →
      ∃ body back, PayloadMirrors table payload shape body back
  | .empty, _, _, _ => ⟨_, _, payloadMirrors_empty⟩
  | .named complete members, distinct, finite, unique => by
    obtain ⟨keys, inside⟩ := Bool.and_eq_true_iff.1 distinct
    have below := (Bool.or_eq_false_iff.1 finite).2
    obtain ⟨entries, each⟩ := memberMirrors_of_membersHaveTrees names members inside below
    exact ⟨_, _, payloadMirrors_named unique complete (of_decide_eq_true keys) each⟩
  | .tuple sized members, distinct, finite, _ => by
    have below := (Bool.or_eq_false_iff.1 finite).2
    obtain ⟨entries, each⟩ := memberMirrors_of_membersHaveTrees names members
      ((fieldsHaveDistinctKeys_keyedFrom 0 _).trans distinct)
      ((fieldsContain_keyedFrom _ 0 _).trans below)
    rw [members_tuple] at each
    obtain ⟨jsons, backs, elements⟩ :=
      exists_elementsMirror each sized (holdsFrom_keyedFrom 0 _)
    exact ⟨_, _, payloadMirrors_tuple sized elements⟩

end

/-- Whatever has a tree and finite floats comes back from its JSON form as what it collapses to,
and so it comes back the same unless an absent option stands in a present one. Records of a value
are ordered maps, and so their keys are distinct. -/
theorem ofJson_toJson {idl : Idl} (accepted : Table.ofIdl idl = .ok table) {value : Value}
    {type : FieldType} {path : String} {tree : Tree} (distinct : value.hasDistinctKeys = true)
    (finite : value.contains isNonFinite = false)
    (made : value.toTree table type path = .ok tree) :
    ∃ json back, (∀ path, value.toJson table type path = .ok json) ∧
      (∀ path, ofJson table json type path = .ok back) ∧
      back.identical value.collapse = true ∧
      (back.same value = true ↔ value.contains isSomeOfNone = false) := by
  have names := (Table.ofTypes_eq_ok accepted).2
  obtain ⟨json, back, mirrors⟩ := mirrors_of_hasTree names (toTree_eq_ok.1 made) distinct finite
  refine ⟨json, back, mirrors.written, mirrors.read, ?_, mirrors.agrees.faithful, fun plain => ?_⟩
  · exact mirrors.agrees.collapsed (· == ·) fun x => beq_self_eq_true x
  · have same := mirrors.agrees.collapsed Binary64.same Binary64.same_refl
    rwa [collapse_eq_self value plain] at same

def slots : Idl :=
  ⟨none, none, [⟨"Slot", .struct [⟨"key", .option (.option (.primitive (.unsigned .w64)))⟩]⟩]⟩

def slotOf (key : Value) : Value :=
  .struct "Slot" [("key", key)]

theorem ofJson_toJson_slot :
    (∃ json back,
      (∀ path, (slotOf (.option (some (.option none)))).toJson ⟨slots.types⟩ (.defined "Slot")
        path = .ok json) ∧
      (∀ path, ofJson ⟨slots.types⟩ json (.defined "Slot") path = .ok back) ∧
      back.identical (slotOf (.option none)) = true ∧
      back.same (slotOf (.option (some (.option none)))) ≠ true) ∧
    ∃ json back,
      (∀ path, (slotOf (.option (some (.option (some (.unsigned 7)))))).toJson ⟨slots.types⟩
        (.defined "Slot") path = .ok json) ∧
      (∀ path, ofJson ⟨slots.types⟩ json (.defined "Slot") path = .ok back) ∧
      back.same (slotOf (.option (some (.option (some (.unsigned 7)))))) = true := by
  constructor
  · obtain ⟨json, back, written, read, collapsed, faithful⟩ :=
      @ofJson_toJson ⟨slots.types⟩ slots rfl (slotOf (.option (some (.option none))))
        (.defined "Slot") "" _ rfl rfl rfl
    refine ⟨json, back, written, read, collapsed, fun same => ?_⟩
    cases faithful.1 same
  · obtain ⟨json, back, written, read, -, faithful⟩ :=
      @ofJson_toJson ⟨slots.types⟩ slots rfl
        (slotOf (.option (some (.option (some (.unsigned 7)))))) (.defined "Slot") "" _ rfl rfl rfl
    exact ⟨json, back, written, read, faithful.2 rfl⟩

end Value

end WireSchema
