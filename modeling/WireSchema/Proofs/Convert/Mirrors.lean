import WireSchema.Convert.ToJson
import WireSchema.Proofs.Bytes.Base58
import WireSchema.Proofs.Convert.Collapse
import WireSchema.Proofs.Convert.OfJson
import WireSchema.Proofs.Text.Numeral

/-! JSON forms and what comes back of them, for values without fields: numbers, texts, options,
lists and maps. Only an option is written as `null`, and only where nothing of it is left. -/

namespace WireSchema

open Outcome

namespace Width

theorem containsNat_w128 {w : Width} {n : Nat} (bound : w.containsNat n = true) :
    Width.w128.containsNat n = true := by
  have widest : 256 ^ w.bytes ≤ 256 ^ Width.w128.bytes := by cases w <;> decide
  rw [containsNat_iff] at bound ⊢
  omega

theorem containsInt_w128 {w : Width} {i : Int} (bound : w.containsInt i = true) :
    Width.w128.containsInt i = true := by
  have widest : 256 ^ w.bytes / 2 ≤ 256 ^ Width.w128.bytes / 2 := by cases w <;> decide
  rw [containsInt_iff] at bound ⊢
  omega

/-- Integers that are not wide fit a JSON number. -/
theorem le_maxSigned {w : Width} {i : Int} (narrow : ¬w.isWide = true)
    (bound : w.containsInt i = true) : i ≤ Json.maxSigned := by
  have small : ((256 ^ w.bytes / 2 : Nat) : Int) ≤ Json.maxSigned := by
    cases w with
    | w64 => exact absurd rfl narrow
    | w128 => exact absurd rfl narrow
    | _ => decide
  have upper := ((w.containsInt_iff i).1 bound).2
  omega

end Width

namespace Convert

theorem readUnsigned_toString {w : Width} {n : Nat} (fits : w.containsNat n = true) :
    readUnsigned w (toString n) = .ok n :=
  readNumeral_eq_ok.2 ⟨Numeral.natural?_toString n, fits⟩

theorem readSigned_toString {w : Width} {i : Int} (fits : w.containsInt i = true) :
    readSigned w (toString i) = .ok i :=
  readNumeral_eq_ok.2 ⟨Numeral.integer?_toString i, fits⟩

/-- An integer is read off the number or the text that it was written as. -/
theorem jsonInteger_written [ToString α] {p : Primitive} {fits : α → Bool}
    {read : String → Convert α} {number? : Json → Option α} {n : α} {number : Json}
    (bound : fits n = true) (text : read (toString n) = .ok n)
    (narrow : ¬p.isWideInteger = true → number? number = some n) (path : String) :
    jsonInteger p fits read number? path
      (if p.isWideInteger then .string (toString n) else number) = .ok n := by
  rw [jsonInteger_eq_ok, jsonNumeral_eq_ok]
  by_cases wide : p.isWideInteger = true
  · rw [if_pos wide, if_pos wide]
    exact ⟨⟨_, rfl, text⟩, bound⟩
  · rw [if_neg wide, if_neg wide]
    exact ⟨narrow wide, bound⟩

theorem jsonBytes_written (path : String) (position : Nat) (bytes : List UInt8) :
    jsonBytes path position (bytes.map fun byte => .nat byte.toNat) = .ok bytes := by
  induction bytes generalizing position with
  | nil => rfl
  | cons byte rest ih =>
    have here : jsonByte (atIndex path position) (.nat byte.toNat) = .ok byte := by
      simp only [jsonByte, Json.natural?_nat, if_pos byte.toNat_lt, UInt8.ofNat_toNat]
    exact bind_eq_ok.2 ⟨byte, here, bind_eq_ok.2 ⟨rest, ih (position + 1), rfl⟩⟩

/-- Nothing is filled in where nothing is absent. -/
theorem membersOr_of_members {absent : β} {converters : Record (Converter β)} {path : String}
    {declared : List Field} {entries : List (String × β)}
    (made : members converters path declared = .ok entries) :
    membersOr absent converters path declared = .ok entries := by
  induction declared generalizing entries with
  | nil => exact made
  | cons field rest ih =>
    rw [members] at made
    split at made
    next convert found =>
      obtain ⟨value, first, tail⟩ := bind_eq_ok.1 made
      obtain ⟨others, restMade, done⟩ := bind_eq_ok.1 tail
      rw [membersOr, found]
      exact bind_eq_ok.2 ⟨value, first, bind_eq_ok.2 ⟨others, ih restMade, done⟩⟩
    next => cases made

end Convert

namespace Value

variable {table : Table}

theorem wrapped_zero (result : Convert Value) : wrapped 0 <$> result = result := by
  cases result with
  | error error => rfl
  | ok value => rfl

theorem ofJson_primitive (p : Primitive) (json : Json) (path : String) :
    ofJson table json (.primitive p) path = p.valueOfJson json path := by
  cases json with
  | null => rfl
  | _ => exact wrapped_zero _

theorem toJson_primitive (p : Primitive) (value : Value) (path : String) :
    toJson table value (.primitive p) path = p.jsonOfValue value path := by
  cases value with
  | option item => cases item <;> rfl
  | enum name kind tag payload => cases payload <;> rfl
  | _ => rfl

/-- Options around a type are put around what is read, unless that is `null`. -/
theorem ofJson_option {json : Json} (present : json ≠ .null) (item : FieldType) (path : String) :
    ofJson table json (.option item) path =
      (ofJson table json item path).map fun value => .option (some value) := by
  have wrapped_succ (result : Convert Value) : wrapped (item.optionDepth + 1) <$> result =
      (wrapped item.optionDepth <$> result).map fun value => .option (some value) := by
    cases result with
    | error error => rfl
    | ok value => rfl
  cases json with
  | null => exact absurd rfl present
  | _ => exact wrapped_succ _

/-! ## What comes back -/

/-- A value that comes back is what the one before collapsed to, and is the same as that one only
if nothing could collapse. -/
structure Agrees (back value : Value) : Prop where
  collapsed : ∀ floats : Binary64 → Binary64 → Bool, (∀ x, floats x x = true) →
    sameBy floats back value.collapse = true
  faithful : back.same value = true → value.contains isSomeOfNone = false

structure Mirrors (table : Table) (value : Value) (type : FieldType) (json : Json) (back : Value) :
    Prop where
  written : ∀ path, toJson table value type path = .ok json
  absent : json = .null ↔ value.collapse = .option none
  read : ∀ path, ofJson table json type path = .ok back
  agrees : Agrees back value

theorem mirrors_primitive {p : Primitive} {value : Value} {json : Json}
    (written : ∀ path, p.jsonOfValue value path = .ok json)
    (read : ∀ path, p.valueOfJson json path = .ok value) (present : json ≠ .null)
    (plain : value.contains isSomeOfNone = false) (some : value ≠ .option none)
    (reflexive : ∀ floats : Binary64 → Binary64 → Bool, (∀ x, floats x x = true) →
      sameBy floats value value = true) :
    Mirrors table value (.primitive p) json value := by
  have same := collapse_eq_self value plain
  refine ⟨fun path => ?_, ?_, fun path => ?_, ?_, fun _ => plain⟩
  · rw [toJson_primitive, written]
  · rw [same, iff_false_left present]
    exact some
  · rw [ofJson_primitive, read]
  · rw [same]
    exact reflexive

/-- An integer is a JSON number or text, and neither is `null`. -/
theorem mirrors_integer {p : Primitive} {value : Value} {text : String} {number : Number}
    (plain : value.contains isSomeOfNone = false) (some : value ≠ .option none)
    (reflexive : ∀ floats : Binary64 → Binary64 → Bool, sameBy floats value value = true)
    (written : ∀ path, p.jsonOfValue value path =
      .ok (if p.isWideInteger then .string text else .number number))
    (read : ∀ path, p.valueOfJson (if p.isWideInteger then .string text else .number number) path =
      .ok value) :
    ∃ json, Mirrors table value (.primitive p) json value := by
  refine ⟨_, mirrors_primitive written read ?_ plain some fun floats _ => reflexive floats⟩
  split
  next => simp
  next => simp

theorem mirrors_unsigned {width : Width} {n : Nat} (bound : width.containsNat n = true) :
    ∃ json, Mirrors table (.unsigned n) (.primitive (.unsigned width)) json (.unsigned n) := by
  have text := Convert.readUnsigned_toString (Width.containsNat_w128 bound)
  have read : ∀ path, Convert.jsonUnsigned width path
      (if width.isWide then .string (toString n) else .nat n) = .ok n :=
    Convert.jsonInteger_written bound text fun _ => Json.natural?_nat n
  exact mirrors_integer rfl (by simp) (fun _ => beq_self_eq_true n) (fun _ => if_pos bound)
    fun path => map_eq_ok.2 ⟨n, read path, rfl⟩

theorem mirrors_signed {width : Width} {i : Int} (bound : width.containsInt i = true) :
    ∃ json, Mirrors table (.signed i) (.primitive (.signed width)) json (.signed i) := by
  have text := Convert.readSigned_toString (Width.containsInt_w128 bound)
  have read : ∀ path, Convert.jsonSigned width path
      (if width.isWide then .string (toString i) else .int i) = .ok i :=
    Convert.jsonInteger_written bound text fun narrow => if_pos (Width.le_maxSigned narrow bound)
  exact mirrors_integer rfl (by simp) (fun _ => beq_self_eq_true i) (fun _ => if_pos bound)
    fun path => map_eq_ok.2 ⟨i, read path, rfl⟩

/-- A finite float is a JSON number, and is read as it is or in single precision. -/
theorem mirrors_float {p : Primitive} {x : Binary64} (finite : x.isFinite = true)
    (written : ∀ path, p.jsonOfValue (.float x) path = .ok (.ofFloat x))
    (read : ∀ path, p.valueOfJson (.number (.float x)) path = .ok (.float x)) :
    ∃ json, Mirrors table (.float x) (.primitive p) json (.float x) := by
  have number : Json.ofFloat x = .number (.float x) := if_pos finite
  exact ⟨_, mirrors_primitive (fun path => number ▸ written path) read (by simp) rfl (by simp)
    fun _ reflexive => reflexive x⟩

theorem isFinite_of_contains {x : Binary64}
    (finite : (Value.float x).contains isNonFinite = false) : x.isFinite = true := by
  simpa [contains, isNonFinite] using finite

theorem mirrors_single {x : Binary64} (exact : x.isNaN = true ∨ x.toSingle = x)
    (finite : x.isFinite = true) :
    ∃ json, Mirrors table (.float x) (.primitive .single) json (.float x) := by
  have number : x.isNaN ≠ true := by
    unfold Binary64.isFinite at finite
    unfold Binary64.isNaN
    split at finite
    next decoded => simp [decoded]
    next => cases finite
  refine mirrors_float finite (fun _ => rfl) fun path => ?_
  exact congrArg (Except.ok ∘ Value.float) (exact.resolve_left number)

theorem mirrors_bytes (b : List UInt8) :
    ∃ json, Mirrors table (.bytes b) (.primitive .bytes) json (.bytes b) :=
  ⟨_, mirrors_primitive (fun _ => rfl)
    (fun path => bind_eq_ok.2 ⟨_, rfl, bind_eq_ok.2 ⟨b, Convert.jsonBytes_written path 0 b, rfl⟩⟩)
    (by simp) rfl (by simp) (fun _ _ => beq_self_eq_true b)⟩

theorem mirrors_publicKey (key : PublicKey) :
    ∃ json, Mirrors table (.publicKey key) (.primitive .publicKey) json (.publicKey key) := by
  have text : Convert.readPublicKey key.text = .ok key := by
    rw [Convert.readPublicKey, key.ofText_text]
  exact ⟨_, mirrors_primitive (fun _ => rfl)
    (fun path => bind_eq_ok.2 ⟨_, rfl, bind_eq_ok.2 ⟨key, mapError_eq_ok.2 text, rfl⟩⟩)
    (by simp) rfl (by simp) (fun _ _ => beq_self_eq_true key)⟩

/-! ## Options -/

theorem mirrors_none (item : FieldType) :
    Mirrors table (.option none) (.option item) .null (.option none) :=
  ⟨fun _ => rfl, iff_of_true rfl rfl, fun _ => rfl, fun _ _ => rfl, fun _ => rfl⟩

/-- Where the content is `null`, the option is taken for an absent one. -/
theorem mirrors_some {value back : Value} {item : FieldType} {json : Json}
    (inner : Mirrors table value item json back) :
    ∃ back', Mirrors table (.option (some value)) (.option item) json back' := by
  -- This is the only place where two values share a form: an absent content is written as an
  -- absent option is, and is read as one.
  by_cases null : json = .null
  · subst null
    have collapsed := collapse_some_of_none (inner.absent.1 rfl)
    refine ⟨.option none, inner.written, iff_of_true rfl collapsed, fun _ => rfl, ?_, ?_⟩
    · rw [collapsed]
      exact fun _ _ => rfl
    · rintro ⟨⟩
  · have present : value.collapse ≠ .option none := mt inner.absent.2 null
    have collapsed := collapse_some present
    refine ⟨.option (some back), inner.written, ?_, fun path => ?_, ?_, fun same => ?_⟩
    · rw [collapsed, iff_false_left null]
      simp
    · rw [ofJson_option null, inner.read]
      rfl
    · rw [collapsed]
      exact inner.agrees.collapsed
    · have filled : value ≠ .option none := by
        rintro rfl
        exact present rfl
      exact Bool.or_eq_false_iff.2 ⟨isSomeOfNone_some filled, inner.agrees.faithful same⟩

/-! ## Lists and maps -/

structure ItemsAgree (backs items : List Value) : Prop where
  collapsed : ∀ floats : Binary64 → Binary64 → Bool, (∀ x, floats x x = true) →
    sameItems floats backs (collapseItems items) = true
  faithful : sameItems Binary64.same backs items = true → itemsContain isSomeOfNone items = false

theorem itemsAgree_nil : ItemsAgree [] [] :=
  ⟨fun _ _ => rfl, fun _ => rfl⟩

theorem ItemsAgree.cons {back value : Value} {backs items : List Value} (first : Agrees back value)
    (rest : ItemsAgree backs items) : ItemsAgree (back :: backs) (value :: items) where
  collapsed floats reflexive := Bool.and_eq_true_iff.2
    ⟨first.collapsed floats reflexive, rest.collapsed floats reflexive⟩
  faithful same := by
    obtain ⟨here, below⟩ := Bool.and_eq_true_iff.1 same
    exact Bool.or_eq_false_iff.2 ⟨first.faithful here, rest.faithful below⟩

structure ItemsMirror (table : Table) (items : List Value) (type : FieldType) (jsons : List Json)
    (backs : List Value) : Prop where
  written : ∀ path position, jsonItems table items type path position = .ok jsons
  read : ∀ path position, ofJsonItems table jsons type path position = .ok backs
  sized : jsons.length = items.length
  agrees : ItemsAgree backs items

theorem itemsMirror_cons {value back : Value} {items backs : List Value} {type : FieldType}
    {json : Json} {jsons : List Json} (first : Mirrors table value type json back)
    (rest : ItemsMirror table items type jsons backs) :
    ItemsMirror table (value :: items) type (json :: jsons) (back :: backs) where
  written path position := bind_eq_ok.2
    ⟨json, first.written _, bind_eq_ok.2 ⟨jsons, rest.written path (position + 1), rfl⟩⟩
  read path position := bind_eq_ok.2
    ⟨back, first.read _, bind_eq_ok.2 ⟨backs, rest.read path (position + 1), rfl⟩⟩
  sized := congrArg Nat.succ rest.sized
  agrees := .cons first.agrees rest.agrees

theorem mirrors_list {items backs : List Value} {item type : FieldType} {jsons : List Json}
    (each : ItemsMirror table items item jsons backs)
    (written : ∀ path, toJson table (.list items) type path = .ok (.array jsons))
    (read : ∀ path, ofJson table (.array jsons) type path = .ok (.list backs)) :
    Mirrors table (.list items) type (.array jsons) (.list backs) :=
  ⟨written, by simp [collapse], read, each.agrees.collapsed, each.agrees.faithful⟩

theorem mirrors_vec {items backs : List Value} {item : FieldType} {jsons : List Json}
    (each : ItemsMirror table items item jsons backs) :
    Mirrors table (.list items) (.vec item) (.array jsons) (.list backs) := by
  refine mirrors_list each (fun path => ?_) fun path => ?_
  · exact map_eq_ok.2 ⟨jsons, each.written path 0, rfl⟩
  · exact map_eq_ok.2 ⟨_, map_eq_ok.2 ⟨backs, each.read path 0, rfl⟩, rfl⟩

theorem mirrors_array {items backs : List Value} {item : FieldType} {length : Nat}
    {jsons : List Json} (sized : items.length = length)
    (each : ItemsMirror table items item jsons backs) :
    Mirrors table (.list items) (.array item length) (.array jsons) (.list backs) := by
  refine mirrors_list each (fun path => ?_) fun path => ?_
  · simp only [toJson, if_pos sized]
    exact map_eq_ok.2 ⟨jsons, each.written path 0, rfl⟩
  · simp only [ofJson, FieldType.core, if_pos (each.sized.trans sized)]
    exact map_eq_ok.2 ⟨_, map_eq_ok.2 ⟨backs, each.read path 0, rfl⟩, rfl⟩

structure PairsMirror (table : Table) (entries : List (Value × Value)) (key item : FieldType)
    (jsons : List Json) (backs : List (Value × Value)) : Prop where
  written : ∀ path position, jsonEntries table entries key item path position = .ok jsons
  read : ∀ path position, ofJsonPairs table jsons key item path position = .ok backs
  collapsed : ∀ floats : Binary64 → Binary64 → Bool, (∀ x, floats x x = true) →
    sameEntries floats backs (collapseEntries entries) = true
  faithful : sameEntries Binary64.same backs entries = true →
    entriesContain isSomeOfNone entries = false

theorem pairsMirror_cons {entry back : Value × Value} {entries backs : List (Value × Value)}
    {key item : FieldType} {keyJson itemJson : Json} {jsons : List Json}
    (first : Mirrors table entry.1 key keyJson back.1)
    (second : Mirrors table entry.2 item itemJson back.2)
    (rest : PairsMirror table entries key item jsons backs) :
    PairsMirror table (entry :: entries) key item (.array [keyJson, itemJson] :: jsons)
      (back :: backs) where
  written path position := bind_eq_ok.2 ⟨keyJson, first.written _,
    bind_eq_ok.2 ⟨itemJson, second.written _,
      bind_eq_ok.2 ⟨jsons, rest.written path (position + 1), rfl⟩⟩⟩
  read path position := by
    have pair : ofJsonPair table (.array [keyJson, itemJson]) key item
        (Convert.atIndex path position) = .ok back :=
      bind_eq_ok.2 ⟨back.1, first.read _, bind_eq_ok.2 ⟨back.2, second.read _, rfl⟩⟩
    exact bind_eq_ok.2 ⟨back, pair, bind_eq_ok.2 ⟨backs, rest.read path (position + 1), rfl⟩⟩
  collapsed floats reflexive := by
    have both := Bool.and_eq_true_iff.2
      ⟨first.agrees.collapsed floats reflexive, second.agrees.collapsed floats reflexive⟩
    exact Bool.and_eq_true_iff.2 ⟨both, rest.collapsed floats reflexive⟩
  faithful same := by
    obtain ⟨both, below⟩ := Bool.and_eq_true_iff.1 same
    obtain ⟨keys, items⟩ := Bool.and_eq_true_iff.1 both
    have plain := Bool.or_eq_false_iff.2
      ⟨first.agrees.faithful keys, second.agrees.faithful items⟩
    exact Bool.or_eq_false_iff.2 ⟨plain, rest.faithful below⟩

theorem mirrors_map {entries backs : List (Value × Value)} {key item : FieldType}
    {jsons : List Json} (each : PairsMirror table entries key item jsons backs) :
    Mirrors table (.map entries) (.hashMap key item) (.array jsons) (.map backs) where
  written path := map_eq_ok.2 ⟨jsons, each.written path 0, rfl⟩
  absent := by simp [collapse]
  read path := map_eq_ok.2 ⟨_, map_eq_ok.2 ⟨backs, each.read path 0, rfl⟩, rfl⟩
  agrees := ⟨each.collapsed, each.faithful⟩

end Value

end WireSchema
