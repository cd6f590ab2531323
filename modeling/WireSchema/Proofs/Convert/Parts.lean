import WireSchema.Proofs.Codec.Limits
import WireSchema.Proofs.Convert.HasTree
import WireSchema.Proofs.Record

/-! Values in parts. A value at a type is made of further values at types. Going down into them
passes definitions, and how many there are on the way is the depth of a part. -/

namespace WireSchema

def FieldType.hops : FieldType → Nat
  | defined _ => 1
  | _ => 0

structure TypedValue where
  value : Value
  type : FieldType
  deriving Repr

namespace TypedValue

def ofMembers (fields : Record Value) (declared : List Field) : List TypedValue :=
  declared.filterMap fun field =>
    (Record.get? fields field.name).map fun value => ⟨value, field.type⟩

def ofPayload : Payload Value → Shape → List TypedValue
  | .named fields, .named declared => ofMembers fields declared
  | .tuple items, .tuple types => (items.zip types).map fun element => ⟨element.1, element.2⟩
  | _, _ => []

def parts (table : Table) : TypedValue → List TypedValue
  | ⟨.list items, .vec item⟩ | ⟨.list items, .array item _⟩ => items.map fun value => ⟨value, item⟩
  | ⟨.option (some value), .option item⟩ => [⟨value, item⟩]
  | ⟨.map entries, .hashMap key item⟩ =>
    entries.flatMap fun entry => [⟨entry.1, key⟩, ⟨entry.2, item⟩]
  | ⟨.struct _ fields, .defined name⟩ =>
    match table.body? name with
    | some (.struct declared) => ofMembers fields declared
    | _ => []
  | ⟨.enum _ kind _ payload, .defined name⟩ =>
    match table.body? name with
    | some (.enum variants) =>
      match variants.find? fun variant => variant.name = kind with
      | some variant => ofPayload payload variant.shape
      | none => []
    | _ => []
  | _ => []

def count : TypedValue → Nat
  | ⟨.string s, .primitive .string⟩ => s.toUTF8.size
  | ⟨.bytes b, .primitive .bytes⟩ => b.length
  | ⟨.list items, .vec _⟩ => items.length
  | ⟨.map entries, .hashMap _ _⟩ => entries.length
  | _ => 0

/-- A value inside another one, or itself, with the number of names on the way down to it. The
name of the outermost value counts, and its own does not. -/
inductive Inside (table : Table) : Nat → TypedValue → TypedValue → Prop
  | self {whole : TypedValue} : Inside table 0 whole whole
  | part {depth : Nat} {whole part inner : TypedValue} (member : part ∈ whole.parts table)
      (below : Inside table depth part inner) :
      Inside table (depth + whole.type.hops) whole inner

/-- A limit that something inside a value exceeds, by the fault that names it: there are too few
names for the way down, or a length takes more than 32 bits. -/
inductive Exceeds (table : Table) (budget : Nat) (whole : TypedValue) : CodecError → Prop
  | depth {depth : Nat} {inner : TypedValue} (inside : Inside table depth whole inner)
      (deep : budget < depth + inner.type.hops) : Exceeds table budget whole (.depthLimit maxDepth)
  | length {depth : Nat} {inner : TypedValue} (inside : Inside table depth whole inner)
      (long : 2 ^ (32 : Nat) ≤ inner.count) :
      Exceeds table budget whole (.lengthTooLarge inner.count)

/-- A limit is exceeded by the value itself or by one of its parts. -/
theorem exceeds_iff {table : Table} {budget : Nat} {whole : TypedValue} {error : CodecError} :
    whole.Exceeds table budget error ↔
      (budget < whole.type.hops ∧ error = .depthLimit maxDepth) ∨
      Emission.TooLong whole.count error ∨
      ∃ part ∈ whole.parts table, part.Exceeds table (budget - whole.type.hops) error := by
  constructor
  · intro exceeds
    cases exceeds with
    | depth inside deep =>
      cases inside with
      | self => exact .inl ⟨by omega, rfl⟩
      | part member below =>
        by_cases here : budget < whole.type.hops
        · exact .inl ⟨here, rfl⟩
        · exact .inr (.inr ⟨_, member, .depth below (by omega)⟩)
    | length inside long =>
      cases inside with
      | self => exact .inr (.inl ⟨long, rfl⟩)
      | part member below => exact .inr (.inr ⟨_, member, .length below long⟩)
  · rintro (⟨here, rfl⟩ | ⟨long, rfl⟩ | ⟨part, member, exceeds⟩)
    · exact .depth .self (by omega)
    · exact .length .self long
    · cases exceeds with
      | depth below deep => exact .depth (.part member below) (by omega)
      | length below long => exact .length (.part member below) long

def Fits (table : Table) (budget : Nat) (whole : TypedValue) : Prop :=
  ∀ depth inner, Inside table depth whole inner →
    depth + inner.type.hops ≤ budget ∧ inner.count < 2 ^ (32 : Nat)

theorem fits_iff_forall {table : Table} {budget : Nat} {whole : TypedValue} :
    whole.Fits table budget ↔ ∀ error, ¬whole.Exceeds table budget error := by
  constructor
  · intro fits error exceeds
    cases exceeds with
    | depth inside deep => exact Nat.not_le.2 deep (fits _ _ inside).1
    | length inside long => exact Nat.not_le.2 (fits _ _ inside).2 long
  · intro none depth inner inside
    exact ⟨Nat.le_of_not_lt fun deep => none _ (.depth inside deep),
      Nat.lt_of_not_le fun long => none _ (.length inside long)⟩

theorem fits_iff {table : Table} {budget : Nat} {whole : TypedValue} :
    whole.Fits table budget ↔ (whole.type.hops ≤ budget ∧ whole.count < 2 ^ (32 : Nat)) ∧
      ∀ part ∈ whole.parts table, part.Fits table (budget - whole.type.hops) := by
  rw [fits_iff_forall, forall_congr' fun _ => not_congr exceeds_iff]
  simp only [Emission.TooLong, fits_iff_forall, not_or, forall_and, not_and, not_exists]
  grind

theorem fits_none (table : Table) (budget : Nat) (item : FieldType) :
    Fits table budget ⟨.option none, .option item⟩ := by
  rw [fits_iff]
  simp [parts, count, FieldType.hops]

theorem fits_some {table : Table} {budget : Nat} {value : Value} {item : FieldType} :
    Fits table budget ⟨.option (some value), .option item⟩ ↔ Fits table budget ⟨value, item⟩ := by
  rw [fits_iff]
  simp [parts, count, FieldType.hops]

theorem fits_struct {table : Table} {budget : Nat} {name : String} {declared : List Field}
    (known : table.body? name = some (.struct declared)) (fields : Record Value) :
    Fits table budget ⟨.struct name fields, .defined name⟩ ↔
      1 ≤ budget ∧ ∀ part ∈ ofMembers fields declared, part.Fits table (budget - 1) := by
  rw [fits_iff]
  simp [parts, known, count, FieldType.hops]

/-! ## Parts are smaller -/

theorem mem_ofMembers {fields : Record Value} {declared : List Field} {part : TypedValue}
    (member : part ∈ ofMembers fields declared) : ∃ key, (key, part.value) ∈ fields := by
  obtain ⟨field, -, made⟩ := List.mem_filterMap.1 member
  obtain ⟨value, found, rfl⟩ := Option.map_eq_some_iff.1 made
  exact ⟨field.name, Record.mem_of_get? found⟩

theorem sizeOf_lt_of_mem_fields {fields : Record Value} {key : String} {value : Value}
    (member : (key, value) ∈ fields) : sizeOf value < sizeOf fields := by
  have smaller := List.sizeOf_lt_of_mem member
  simp only [Prod.mk.sizeOf_spec] at smaller
  omega

theorem sizeOf_lt_of_mem_ofPayload {payload : Payload Value} {shape : Shape} {part : TypedValue}
    (member : part ∈ ofPayload payload shape) : sizeOf part.value < sizeOf payload := by
  unfold ofPayload at member
  split at member
  next fields declared =>
    obtain ⟨key, inside⟩ := mem_ofMembers member
    have smaller := sizeOf_lt_of_mem_fields inside
    simp only [Payload.named.sizeOf_spec]
    omega
  next items types =>
    obtain ⟨element, paired, rfl⟩ := List.mem_map.1 member
    have smaller := List.sizeOf_lt_of_mem (List.of_mem_zip paired).1
    simp only [Payload.tuple.sizeOf_spec]
    omega
  next => cases member

theorem sizeOf_lt_of_mem_map {items : List Value} {item : FieldType} {part : TypedValue}
    (member : part ∈ items.map fun value => ⟨value, item⟩) : sizeOf part.value < sizeOf items := by
  obtain ⟨value, inside, rfl⟩ := List.mem_map.1 member
  exact List.sizeOf_lt_of_mem inside

theorem sizeOf_lt_of_mem_parts {table : Table} {whole part : TypedValue}
    (member : part ∈ whole.parts table) : sizeOf part.value < sizeOf whole.value := by
  unfold parts at member
  split at member
  next items item =>
    have smaller := sizeOf_lt_of_mem_map member
    simp only [Value.list.sizeOf_spec]
    omega
  next items item length =>
    have smaller := sizeOf_lt_of_mem_map member
    simp only [Value.list.sizeOf_spec]
    omega
  next value item =>
    rw [List.mem_singleton.1 member]
    simp only [Value.option.sizeOf_spec, Option.some.sizeOf_spec]
    omega
  next entries key item =>
    obtain ⟨entry, inside, either⟩ := List.mem_flatMap.1 member
    have smaller := List.sizeOf_lt_of_mem inside
    obtain ⟨first, second⟩ := entry
    simp only [Prod.mk.sizeOf_spec] at smaller
    simp only [Value.map.sizeOf_spec]
    simp only [List.mem_cons, List.not_mem_nil, or_false] at either
    obtain rfl | rfl := either <;> simp only <;> omega
  next fields name =>
    split at member
    next declared known =>
      obtain ⟨key, inside⟩ := mem_ofMembers member
      have smaller := sizeOf_lt_of_mem_fields inside
      simp only [Value.struct.sizeOf_spec]
      omega
    next => cases member
  next kind tag payload name =>
    split at member
    next variants known =>
      split at member
      next variant chosen =>
        have smaller := sizeOf_lt_of_mem_ofPayload member
        simp only [Value.enum.sizeOf_spec]
        omega
      next => cases member
    next => cases member
  next => cases member

end TypedValue

end WireSchema
