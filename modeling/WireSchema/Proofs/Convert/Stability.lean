import WireSchema.Proofs.Convert.Plain
import WireSchema.Proofs.Convert.ToJson

/-! Values that were read from JSON, printed and read again. All of them have a JSON form. It gives
back the same value if the floats of the value are finite, and never if they are not: a number that
is too large for single precision is read as an infinity, which JSON cannot spell. -/

namespace WireSchema

open Outcome

namespace Value

variable {table : Table}

/-! ## Printed values -/

/-- The JSON form of a value, of which the same value is read only if its floats are finite. -/
structure Prints (table : Table) (value : Value) (type : FieldType) (json : Json) : Prop where
  written : ∀ path, toJson table value type path = .ok json
  returns : ∀ path back, ofJson table json type path = .ok back → back.same value = true →
    value.contains isNonFinite = false

def IsPrintable (table : Table) (value : Value) (type : FieldType) : Prop :=
  ∃ json, Prints table value type json

/-- A float that is not finite is written as `null`, which no primitive type takes. -/
theorem isPrintable_float {p : Primitive} {x : Binary64} (infinite : x.isFinite = false)
    (written : ∀ path, p.jsonOfValue (.float x) path = .ok (.ofFloat x))
    (refused : ∀ path value, p.valueOfJson .null path ≠ .ok value) :
    IsPrintable table (.float x) (.primitive p) := by
  have null : Json.ofFloat x = .null := by simp [Json.ofFloat, infinite]
  refine ⟨.null, fun path => ?_, fun path back made => ?_⟩
  · rw [toJson_primitive, written, null]
  · exact absurd made (refused path back)

theorem isPrintable_primitive (names : table.HasNames) {p : Primitive} {value : Value}
    {tree : Tree} (has : HasTree table value (.primitive p) tree) :
    IsPrintable table value (.primitive p) := by
  by_cases finite : value.contains isNonFinite = false
  · obtain ⟨json, back, mirrors⟩ :=
      mirrors_of_hasTree names has (isPlain_of_hasTree has).distinct finite
    exact ⟨json, mirrors.written, fun _ _ _ _ => finite⟩
  · cases has with
    | single exact =>
      refine isPrintable_float ?_ (fun _ => rfl) fun path value made => by cases made
      simpa [contains, isNonFinite] using finite
    | double x =>
      refine isPrintable_float ?_ (fun _ => rfl) fun path value made => by cases made
      simpa [contains, isNonFinite] using finite
    | _ => exact absurd rfl finite

theorem isPrintable_none (item : FieldType) : IsPrintable table (.option none) (.option item) :=
  ⟨.null, fun _ => rfl, fun _ _ _ _ => rfl⟩

/-- If nothing but `null` is left of the content, the option is read as an absent one. -/
theorem isPrintable_some {value : Value} {item : FieldType}
    (inner : IsPrintable table value item) :
    IsPrintable table (.option (some value)) (.option item) := by
  obtain ⟨json, prints⟩ := inner
  refine ⟨json, prints.written, fun path back made same => ?_⟩
  by_cases null : json = .null
  · subst null
    cases made
    cases same
  · rw [ofJson_option null] at made
    obtain ⟨content, contentMade, rfl⟩ := map_eq_ok.1 made
    exact prints.returns path content contentMade same

/-! ## Lists and maps -/

structure ItemsPrint (table : Table) (items : List Value) (type : FieldType)
    (jsons : List Json) : Prop where
  written : ∀ path position, jsonItems table items type path position = .ok jsons
  returns : ∀ path position backs, ofJsonItems table jsons type path position = .ok backs →
    sameItems Binary64.same backs items = true → itemsContain isNonFinite items = false
  sized : jsons.length = items.length

theorem exists_itemsPrint {items : List Value} {type : FieldType}
    (each : ∀ item ∈ items, IsPrintable table item type) :
    ∃ jsons, ItemsPrint table items type jsons := by
  induction items with
  | nil => exact ⟨[], fun _ _ => rfl, fun _ _ _ _ _ => rfl, rfl⟩
  | cons item rest ih =>
    obtain ⟨here, below⟩ := List.forall_mem_cons.1 each
    obtain ⟨json, first⟩ := here
    obtain ⟨jsons, others⟩ := ih below
    refine ⟨json :: jsons, fun path position => ?_, fun path position backs made same => ?_,
      congrArg Nat.succ others.sized⟩
    · exact bind_eq_ok.2 ⟨json, first.written _,
        bind_eq_ok.2 ⟨jsons, others.written path (position + 1), rfl⟩⟩
    · obtain ⟨back, backMade, tail⟩ := bind_eq_ok.1 made
      obtain ⟨remaining, restMade, done⟩ := bind_eq_ok.1 tail
      rw [← pure_eq_ok.1 done] at same
      obtain ⟨alike, restAlike⟩ := Bool.and_eq_true_iff.1 same
      exact Bool.or_eq_false_iff.2 ⟨first.returns _ back backMade alike,
        others.returns path (position + 1) remaining restMade restAlike⟩

theorem isPrintable_list {items : List Value} {item type : FieldType} {jsons : List Json}
    (each : ItemsPrint table items item jsons)
    (written : ∀ path, toJson table (.list items) type path = .ok (.array jsons))
    (read : ∀ path, ofJson table (.array jsons) type path =
      (ofJsonItems table jsons item path 0).map .list) :
    IsPrintable table (.list items) type := by
  refine ⟨.array jsons, written, fun path back made same => ?_⟩
  rw [read path] at made
  obtain ⟨backs, backsMade, rfl⟩ := map_eq_ok.1 made
  exact each.returns path 0 backs backsMade same

theorem isPrintable_vec {items : List Value} {item : FieldType}
    (each : ∀ value ∈ items, IsPrintable table value item) :
    IsPrintable table (.list items) (.vec item) := by
  obtain ⟨jsons, print⟩ := exists_itemsPrint each
  refine isPrintable_list print (fun path => ?_) fun path => wrapped_zero _
  exact map_eq_ok.2 ⟨jsons, print.written path 0, rfl⟩

theorem isPrintable_array {items : List Value} {item : FieldType} {length : Nat}
    (sized : items.length = length) (each : ∀ value ∈ items, IsPrintable table value item) :
    IsPrintable table (.list items) (.array item length) := by
  obtain ⟨jsons, print⟩ := exists_itemsPrint each
  refine isPrintable_list print (fun path => ?_) fun path => ?_
  · simp only [toJson, if_pos sized]
    exact map_eq_ok.2 ⟨jsons, print.written path 0, rfl⟩
  · simp only [ofJson, FieldType.core, if_pos (print.sized.trans sized)]
    exact wrapped_zero _

structure PairsPrint (table : Table) (entries : List (Value × Value)) (key item : FieldType)
    (jsons : List Json) : Prop where
  written : ∀ path position, jsonEntries table entries key item path position = .ok jsons
  returns : ∀ path position backs, ofJsonPairs table jsons key item path position = .ok backs →
    sameEntries Binary64.same backs entries = true → entriesContain isNonFinite entries = false

theorem exists_pairsPrint {entries : List (Value × Value)} {key item : FieldType}
    (each : ∀ entry ∈ entries, IsPrintable table entry.1 key ∧ IsPrintable table entry.2 item) :
    ∃ jsons, PairsPrint table entries key item jsons := by
  induction entries with
  | nil => exact ⟨[], fun _ _ => rfl, fun _ _ _ _ _ => rfl⟩
  | cons entry rest ih =>
    obtain ⟨here, below⟩ := List.forall_mem_cons.1 each
    obtain ⟨⟨keyJson, keyPrints⟩, itemJson, itemPrints⟩ := here
    obtain ⟨jsons, others⟩ := ih below
    refine ⟨.array [keyJson, itemJson] :: jsons, fun path position => ?_,
      fun path position backs made same => ?_⟩
    · exact bind_eq_ok.2 ⟨keyJson, keyPrints.written _, bind_eq_ok.2 ⟨itemJson,
        itemPrints.written _, bind_eq_ok.2 ⟨jsons, others.written path (position + 1), rfl⟩⟩⟩
    · obtain ⟨pair, pairMade, tail⟩ := bind_eq_ok.1 made
      obtain ⟨remaining, restMade, done⟩ := bind_eq_ok.1 tail
      obtain ⟨first, firstMade, pairTail⟩ := bind_eq_ok.1 pairMade
      obtain ⟨second, secondMade, pairDone⟩ := bind_eq_ok.1 pairTail
      rw [← pure_eq_ok.1 done, ← pure_eq_ok.1 pairDone] at same
      obtain ⟨both, restAlike⟩ := Bool.and_eq_true_iff.1 same
      obtain ⟨keysAlike, itemsAlike⟩ := Bool.and_eq_true_iff.1 both
      have finite := Bool.or_eq_false_iff.2 ⟨keyPrints.returns _ first firstMade keysAlike,
        itemPrints.returns _ second secondMade itemsAlike⟩
      exact Bool.or_eq_false_iff.2
        ⟨finite, others.returns path (position + 1) remaining restMade restAlike⟩

theorem isPrintable_map {entries : List (Value × Value)} {key item : FieldType}
    (each : ∀ entry ∈ entries, IsPrintable table entry.1 key ∧ IsPrintable table entry.2 item) :
    IsPrintable table (.map entries) (.hashMap key item) := by
  obtain ⟨jsons, print⟩ := exists_pairsPrint each
  refine ⟨.array jsons, fun path => ?_, fun path back made same => ?_⟩
  · exact map_eq_ok.2 ⟨jsons, print.written path 0, rfl⟩
  · obtain ⟨inner, found, rfl⟩ := map_eq_ok.1 made
    obtain ⟨backs, backsMade, rfl⟩ := map_eq_ok.1 found
    exact print.returns path 0 backs backsMade same

/-! ## Members -/

def MemberPrints (table : Table) (fields : Record Value) (field : Field) (entry : String × Json) :
    Prop :=
  entry.1 = field.name ∧ ∃ value, Record.get? fields field.name = some value ∧
    Prints table value field.type entry.2

section

variable {fields : Record Value} {declared : List Field} {jsons : Record Json}

theorem exists_memberPrints {entries : Record Value}
    (each : List.Forall₂ (HoldsMember (IsPrintable table)) declared entries)
    (agrees : ∀ entry ∈ entries, Record.get? fields entry.1 = some entry.2) :
    ∃ jsons, List.Forall₂ (MemberPrints table fields) declared jsons := by
  induction each with
  | nil => exact ⟨[], .nil⟩
  | @cons field entry declared entries first _ ih =>
    obtain ⟨named, json, prints⟩ := first
    obtain ⟨here, below⟩ := List.forall_mem_cons.1 agrees
    obtain ⟨jsons, others⟩ := ih below
    exact ⟨(field.name, json) :: jsons, .cons ⟨rfl, entry.2, named ▸ here, prints⟩ others⟩

theorem memberWritten_of_prints (each : List.Forall₂ (MemberPrints table fields) declared jsons) :
    List.Forall₂ (MemberWritten table fields) declared jsons := by
  refine each.imp ?_
  rintro field entry ⟨named, value, found, prints⟩
  exact ⟨named, value, found, prints.written⟩

theorem contains_of_same_none {value : Value} (same : (option none).same value = true) :
    value.contains isNonFinite = false := by
  cases value with
  | option item =>
    cases item with
    | none => rfl
    | some inner => cases same
  | _ => cases same

/-- A member that comes back is read of the JSON form under its name, or filled in. -/
theorem members_return {record : Record Json}
    (each : List.Forall₂ (MemberPrints table fields) declared jsons)
    (agrees : ∀ entry ∈ jsons, Record.get? record entry.1 = some entry.2) {path : String}
    {backs : Record Value} (made : List.Forall₂
      (Convert.GivesOr (.option none) (ofJsonMembers table record) path) declared backs)
    (same : sameFields Binary64.same backs fields = true) :
    ∀ field ∈ declared, ∀ value, Record.get? fields field.name = some value →
      value.contains isNonFinite = false := by
  induction each generalizing backs with
  | nil => simp
  | @cons field entry declared jsons first _ ih =>
    obtain ⟨named, value, found, prints⟩ := first
    obtain ⟨here, below⟩ := List.forall_mem_cons.1 agrees
    cases made with
    | @cons _ back _ backs gives rest =>
      obtain ⟨backNamed, source⟩ := gives
      simp only [sameFields, backNamed, found] at same
      obtain ⟨alike, restAlike⟩ := Bool.and_eq_true_iff.1 same
      refine List.forall_mem_cons.2 ⟨fun other otherFound => ?_, ih below rest restAlike⟩
      rw [← Option.some.inj (found.symm.trans otherFound)]
      rcases source with ⟨convert, known, converted⟩ | ⟨-, absent⟩
      · rw [get?_ofJsonMembers, ← named, here] at known
        cases known
        exact prints.returns _ back.2 converted alike
      · rw [absent] at alike
        exact contains_of_same_none alike

structure MembersPrint (table : Table) (fields : Record Value) (declared : List Field)
    (jsons : Record Json) : Prop where
  written : ∀ path, Convert.members (jsonFields table fields) path declared = .ok jsons
  returns : ∀ path backs,
    Convert.membersOr (.option none) (ofJsonMembers table jsons) path declared = .ok backs →
    sameFields Binary64.same backs fields = true → fieldsContain isNonFinite fields = false

theorem exists_membersPrint
    (each : List.Forall₂ (HoldsMember (IsPrintable table)) declared fields)
    (unique : (declared.map Field.name).Nodup) :
    ∃ jsons, MembersPrint table fields declared jsons := by
  have keys := Convert.keys_eq_names each fun _ _ => And.left
  have distinct : (Record.keys fields).Nodup := keys ▸ unique
  obtain ⟨jsons, prints⟩ := exists_memberPrints each fun _ => Record.get?_of_mem distinct
  refine ⟨jsons, members_written (memberWritten_of_prints prints),
    fun path backs made same => ?_⟩
  have jsonKeys := Convert.keys_eq_names prints fun _ _ => And.left
  have jsonsDistinct : (Record.keys jsons).Nodup := jsonKeys ▸ unique
  refine fieldsContain_of_members (fun key member => keys ▸ member) distinct ?_
  exact members_return prints (fun _ => Record.get?_of_mem jsonsDistinct)
    (Convert.givesOr_of_membersOr made) same

theorem isPrintable_struct {name : String} (known : table.body? name = some (.struct declared))
    (unique : (declared.map Field.name).Nodup)
    (each : List.Forall₂ (HoldsMember (IsPrintable table)) declared fields) :
    IsPrintable table (.struct name fields) (.defined name) := by
  obtain ⟨jsons, print⟩ := exists_membersPrint each unique
  refine ⟨.object jsons, fun path => ?_, fun path back made same => ?_⟩
  · rw [toJson_struct known, print.written]
    rfl
  · rw [ofJson_struct known] at made
    obtain ⟨backs, backsMade, rfl⟩ := map_eq_ok.1 made
    exact print.returns path backs backsMade (Bool.and_eq_true_iff.1 same).2

end

/-! ## Payloads -/

structure ElementsPrint (table : Table) (items : List Value) (position : Nat)
    (types : List FieldType) (jsons : List Json) : Prop where
  written : ∀ path, Convert.elements path position types (jsonElements table items) = .ok jsons
  returns : ∀ path backs,
    Convert.elements path position types (ofJsonElements table jsons) = .ok backs →
    sameItems Binary64.same backs items = true → itemsContain isNonFinite items = false
  sized : types.length = items.length
  counted : types.length = jsons.length

theorem exists_elementsPrint {position : Nat} {types : List FieldType} {entries : Record Value}
    (each : List.Forall₂ (HoldsMember (IsPrintable table)) (elementsFrom position types) entries) :
    ∃ jsons, ElementsPrint table (entries.map Prod.snd) position types jsons := by
  induction types generalizing position entries with
  | nil =>
    cases each
    exact ⟨[], fun _ => rfl, fun _ _ _ _ => rfl, rfl, rfl⟩
  | cons type rest ih =>
    cases each with
    | @cons _ entry _ entries first tail =>
      obtain ⟨-, json, prints⟩ := first
      obtain ⟨jsons, others⟩ := ih tail
      refine ⟨json :: jsons, fun path => ?_, fun path backs made same => ?_,
        congrArg Nat.succ others.sized, congrArg Nat.succ others.counted⟩
      · exact bind_eq_ok.2 ⟨json, prints.written _,
          bind_eq_ok.2 ⟨jsons, others.written path, rfl⟩⟩
      · obtain ⟨back, backMade, rest⟩ := bind_eq_ok.1 made
        obtain ⟨remaining, restMade, done⟩ := bind_eq_ok.1 rest
        rw [← pure_eq_ok.1 done] at same
        obtain ⟨alike, restAlike⟩ := Bool.and_eq_true_iff.1 same
        exact Bool.or_eq_false_iff.2 ⟨prints.returns _ back backMade alike,
          others.returns path remaining restMade restAlike⟩

structure PayloadPrints (table : Table) (payload : Payload Value) (shape : Shape)
    (body : Option Json) : Prop where
  written : ∀ path, jsonOfCarried table payload shape path = .ok body
  returns : ∀ path back,
    (body.map (ofJsonBody table)).getD (payloadWithout "nothing") shape path = .ok back →
    ∀ name kind tag tag', (Value.enum name kind tag' back).same (.enum name kind tag payload) =
      true → (Value.enum name kind tag payload).contains isNonFinite = false

theorem exists_payloadPrints {payload : Payload Value} {shape : Shape}
    (unique : (shape.members.map Field.name).Nodup)
    (carried : HoldsPayload (IsPrintable table) payload shape) :
    ∃ body, PayloadPrints table payload shape body := by
  obtain ⟨entries, each, rfl⟩ := carried
  cases shape with
  | empty => exact ⟨none, fun _ => rfl, fun _ _ _ _ _ _ _ _ => rfl⟩
  | named declared =>
    obtain ⟨jsons, print⟩ := exists_membersPrint each unique
    refine ⟨some (.object jsons), fun path => ?_, fun path back made name kind tag tag' same => ?_⟩
    · exact bind_eq_ok.2 ⟨jsons, print.written path, rfl⟩
    · obtain ⟨backs, backsMade, rfl⟩ := map_eq_ok.1 made
      exact print.returns path backs backsMade (Bool.and_eq_true_iff.1 same).2
  | tuple types =>
    rw [members_tuple] at each
    obtain ⟨jsons, print⟩ := exists_elementsPrint each
    refine ⟨some (.array jsons), fun path => ?_, fun path back made name kind tag tag' same => ?_⟩
    · have counted : types.length = (jsonElements table (entries.map Prod.snd)).length := by
        rw [length_jsonElements, print.sized]
      exact then_eq_ok.2 ⟨Convert.checkArity_eq_ok.2 counted,
        bind_eq_ok.2 ⟨jsons, print.written path, rfl⟩⟩
    · obtain ⟨-, rest⟩ := then_eq_ok.1 made
      obtain ⟨backs, backsMade, done⟩ := bind_eq_ok.1 rest
      rw [← pure_eq_ok.1 done] at same
      exact print.returns path backs backsMade (Bool.and_eq_true_iff.1 same).2

theorem isPrintable_enum {name kind : String} {variants : List Variant} {tag : UInt8}
    {variant : Variant} {payload : Payload Value}
    (known : table.body? name = some (.enum variants))
    (chosen : Convert.findVariant name variants kind = .ok (tag.toNat, variant))
    (unique : (variant.shape.members.map Field.name).Nodup)
    (carried : HoldsPayload (IsPrintable table) payload variant.shape) :
    IsPrintable table (.enum name kind tag payload) (.defined name) := by
  obtain ⟨body, print⟩ := exists_payloadPrints unique carried
  refine ⟨variantObject kind body, fun path => ?_, fun path back made same => ?_⟩
  · rw [toJson_enum]
    exact convertEnum_eq_ok.2 ⟨rfl, _, _, body, known, chosen, print.written _, rfl⟩
  · rw [ofJson_enum known] at made
    obtain ⟨⟨position, found⟩, chosenAgain, rest⟩ := bind_eq_ok.1 made
    obtain ⟨other, otherMade, done⟩ := bind_eq_ok.1 rest
    cases chosen.symm.trans chosenAgain
    rw [← pure_eq_ok.1 done] at same
    exact print.returns _ other otherMade _ _ _ _ same

theorem isKept_printable (names : table.HasNames) : IsKept table (IsPrintable table) where
  primitive made := by
    obtain ⟨tree, has⟩ : Belongs table _ _ := belongs_of_valueOfJson made
    exact isPrintable_primitive names has
  absent := isPrintable_none
  filled _ := isPrintable_some
  vec := isPrintable_vec
  array := isPrintable_array
  map := isPrintable_map
  struct known each := isPrintable_struct known (names.of_body? known).distinct each
  enum known chosen carried := by
    obtain ⟨few, -⟩ := names.of_body? known
    rw [← toNat_tagOf few chosen] at chosen
    exact isPrintable_enum known chosen (names.distinct_of_findVariant known chosen) carried

/-! ## Read again -/

/-- Whatever JSON gives has a JSON form, wherever it stands. What is read of this form is the value
again if its floats are finite, and is never the same value if one of them is not. -/
theorem ofJson_again {types : List TypeDef} (accepted : Table.ofTypes types = .ok table)
    {json : Json} {type : FieldType} {path : String} {value : Value}
    (made : ofJson table json type path = .ok value) :
    ∃ json', (∀ path, value.toJson table type path = .ok json') ∧
      (value.contains isNonFinite = false → ∃ back,
        (∀ path, ofJson table json' type path = .ok back) ∧ back.identical value = true) ∧
      (value.contains isNonFinite = true → ∀ path back,
        ofJson table json' type path = .ok back → back.same value = false) := by
  have names := (Table.ofTypes_eq_ok accepted).2
  obtain ⟨tree, has⟩ := belongs_of_ofJson names made
  have plain : value.IsPlain := holds_of_ofJson (isKept_plain names) json type path value made
  obtain ⟨json', prints⟩ := holds_of_ofJson (isKept_printable names) json type path value made
  refine ⟨json', prints.written, fun finite => ?_, fun infinite path back read => ?_⟩
  · obtain ⟨json'', back, mirrors⟩ := mirrors_of_hasTree names has plain.distinct finite
    have same : json'' = json' :=
      Except.ok.inj ((mirrors.written path).symm.trans (prints.written path))
    refine ⟨back, same ▸ mirrors.read, ?_⟩
    have collapsed := mirrors.agrees.collapsed (· == ·) fun x => beq_self_eq_true x
    rwa [collapse_eq_self value plain.told] at collapsed
  · by_contra differs
    have finite := prints.returns path back read (Bool.not_eq_false _ ▸ differs)
    rw [infinite] at finite
    cases finite

def gauges : List TypeDef :=
  [⟨"Gauge", .struct [⟨"level", .primitive .single⟩, ⟨"limit", .option (.primitive .single)⟩]⟩]

def gaugeOf (level limit : Binary64) : Value :=
  .struct "Gauge" [("level", .float level), ("limit", .option (some (.float limit)))]

/-- Read with a level of 0.1 and a limit of 1 it comes back, and with a limit of 1e39 it does
not: the limit has become infinite, and then it is missing. -/
theorem ofJson_again_gauge :
    (∃ json back,
      (∀ path, (gaugeOf ⟨0x3fb99999a0000000⟩ ⟨0x3ff0000000000000⟩).toJson ⟨gauges⟩
        (.defined "Gauge") path = .ok json) ∧
      (∀ path, ofJson ⟨gauges⟩ json (.defined "Gauge") path = .ok back) ∧
      back.identical (gaugeOf ⟨0x3fb99999a0000000⟩ ⟨0x3ff0000000000000⟩) = true) ∧
    ∃ json,
      (∀ path, (gaugeOf ⟨0x3fb99999a0000000⟩ ⟨0x7ff0000000000000⟩).toJson ⟨gauges⟩
        (.defined "Gauge") path = .ok json) ∧
      ∀ path back, ofJson ⟨gauges⟩ json (.defined "Gauge") path = .ok back →
        back.same (gaugeOf ⟨0x3fb99999a0000000⟩ ⟨0x7ff0000000000000⟩) = false := by
  have accepted : Table.ofTypes gauges = .ok ⟨gauges⟩ := rfl
  constructor
  · obtain ⟨json, written, finite, -⟩ := @ofJson_again ⟨gauges⟩ gauges accepted
      (.object [("level", .number (.float ⟨0x3fb999999999999a⟩)), ("limit", .number (.int 1))])
      (.defined "Gauge") "" (gaugeOf ⟨0x3fb99999a0000000⟩ ⟨0x3ff0000000000000⟩) rfl
    obtain ⟨back, read, same⟩ := finite rfl
    exact ⟨json, back, written, read, same⟩
  · obtain ⟨json, written, -, infinite⟩ := @ofJson_again ⟨gauges⟩ gauges accepted
      (.object [("level", .number (.float ⟨0x3fb999999999999a⟩)),
        ("limit", .number (.float ⟨0x48078287f49c4a1d⟩))])
      (.defined "Gauge") "" (gaugeOf ⟨0x3fb99999a0000000⟩ ⟨0x7ff0000000000000⟩) rfl
    exact ⟨json, written, infinite rfl⟩

/-- Not all that is read comes back: a level of 1e39 is read as an infinite one, which is written
as `null`, and a level cannot be `null`. -/
theorem not_ofJson_again_overflow :
    ¬∀ (types : List TypeDef) (table : Table) (json : Json) (type : FieldType) (path : String)
        (value : Value), Table.ofTypes types = .ok table →
      ofJson table json type path = .ok value →
      ∃ json' back, value.toJson table type path = .ok json' ∧
        ofJson table json' type path = .ok back ∧ back.same value = true := by
  intro stable
  obtain ⟨json, back, written, read, -⟩ := stable gauges ⟨gauges⟩
    (.object [("level", .number (.float ⟨0x48078287f49c4a1d⟩))]) (.defined "Gauge") "Gauge"
    (.struct "Gauge" [("level", .float ⟨0x7ff0000000000000⟩), ("limit", .option none)]) rfl rfl
  have null : json = .object [("level", .null), ("limit", .null)] :=
    (Except.ok.inj written).symm
  rw [null] at read
  cases read

end Value

end WireSchema
