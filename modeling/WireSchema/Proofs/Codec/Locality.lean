import WireSchema.Codec.Parse
import WireSchema.Proofs.Codec.Reading

/-! Reading forward. A read is sequential if the bytes that it passes decide how it ends: what
comes after them is not looked at, and if some of them are missing, that alone is the fault. -/

namespace WireSchema

namespace Read

/-- If the bytes end early, there are too few of them, whatever they hold so far. -/
def Awaits (read : Read α) (bytes : List UInt8) : Prop :=
  ∀ front back, front ++ back = bytes → back ≠ [] →
    ∀ position, (read ⟨position, front⟩).1 = .error .outOfBounds

def IsSequential (read : Read α) : Prop :=
  ∀ reader result after, read reader = (result, after) →
    ∃ bytes, reader.rest = bytes ++ after.rest ∧
      after.position = reader.position + bytes.length ∧
      (result = .error .outOfBounds ∨ read.Gives bytes result ∧ read.Awaits bytes)

/-! ## Parts in a row -/

theorem awaits_nil (read : Read α) : read.Awaits [] := by
  intro front back joined missing
  exact absurd (List.append_eq_nil_iff.1 joined).2 missing

theorem Gives.bind_error {first : Read α} {bytes : List UInt8} {error : CodecError}
    (next : α → Read β) (head : first.Gives bytes (.error error)) :
    (first >>= next).Gives bytes (.error error) :=
  fun position rest => Read.bind_error next (head position rest)

theorem Awaits.bind_left {first : Read α} {bytes : List UInt8} (next : α → Read β)
    (awaits : first.Awaits bytes) : (first >>= next).Awaits bytes := by
  intro front back joined missing position
  have short := awaits front back joined missing position
  rcases began : first ⟨position, front⟩ with ⟨outcome, middle⟩
  rw [began] at short
  subst short
  rw [Read.bind_error next began]

theorem Awaits.bind {first : Read α} {next : α → Read β} {bytes bytes' : List UInt8} {value : α}
    (head : first.Awaits bytes) (found : first.Gives bytes (.ok value))
    (tail : (next value).Awaits bytes') : (first >>= next).Awaits (bytes ++ bytes') := by
  intro front back joined missing position
  have within : ∀ cut, cut ++ back = bytes' →
      ((first >>= next) ⟨position, bytes ++ cut⟩).1 = .error .outOfBounds := by
    intro cut rejoined
    rw [bind_ok next (found position cut)]
    exact tail cut back rejoined missing _
  rcases List.append_eq_append_iff.1 joined with ⟨cut, rfl, rfl⟩ | ⟨cut, rfl, rfl⟩
  · by_cases whole : cut = []
    · subst whole
      simpa using within [] rfl
    · exact head.bind_left next front cut rfl whole position
  · exact within cut rfl

theorem isSequential_pure (value : α) : (pure value : Read α).IsSequential := by
  rintro reader _ _ ⟨⟩
  exact ⟨[], rfl, rfl, .inr ⟨fun _ _ => rfl, awaits_nil _⟩⟩

theorem isSequential_fail (error : CodecError) : (fail error : Read α).IsSequential := by
  rintro reader _ _ ⟨⟩
  exact ⟨[], rfl, rfl, .inr ⟨fun _ _ => rfl, awaits_nil _⟩⟩

theorem IsSequential.bind {first : Read α} {next : α → Read β} (head : first.IsSequential)
    (tail : ∀ value, (next value).IsSequential) : (first >>= next).IsSequential := by
  intro reader result after ended
  rcases began : first reader with ⟨outcome, middle⟩
  obtain ⟨bytes, split, moved, decided⟩ := head reader outcome middle began
  cases outcome with
  | error error =>
    rw [bind_error next began] at ended
    obtain ⟨rfl, rfl⟩ := Prod.mk.inj ended
    refine ⟨bytes, split, moved, ?_⟩
    rcases decided with short | ⟨gives, awaits⟩
    · cases short
      exact .inl rfl
    · exact .inr ⟨gives.bind_error next, awaits.bind_left next⟩
  | ok value =>
    obtain ⟨gives, awaits⟩ := decided.resolve_left (by simp)
    rw [bind_ok next began] at ended
    obtain ⟨bytes', split', moved', decided'⟩ := tail value middle result after ended
    refine ⟨bytes ++ bytes', ?_, ?_, ?_⟩
    · rw [split, split', List.append_assoc]
    · rw [moved', moved, List.length_append, Nat.add_assoc]
    · exact decided'.imp_right fun known => ⟨gives.bind known.1, awaits.bind gives known.2⟩

theorem IsSequential.map {read : Read α} (f : α → β) (sequential : read.IsSequential) :
    (read >>= fun value => pure (f value)).IsSequential :=
  sequential.bind fun value => isSequential_pure (f value)

theorem isSequential_take (count : Nat) : (take count).IsSequential := by
  intro reader result after ended
  unfold take at ended
  by_cases enough : count ≤ reader.rest.length
  · rw [if_pos enough] at ended
    obtain ⟨rfl, rfl⟩ := Prod.mk.inj ended
    have taken : (reader.rest.take count).length = count := List.length_take_of_le enough
    refine ⟨reader.rest.take count, (List.take_append_drop count reader.rest).symm,
      congrArg _ taken.symm, .inr ⟨takes_take taken, ?_⟩⟩
    intro front back joined missing position
    have short : front.length < count := by
      have total := congrArg List.length joined
      have positive := List.length_pos_iff.2 missing
      rw [List.length_append, taken] at total
      omega
    rw [take, if_neg (Nat.not_le.2 short)]
  · rw [if_neg enough] at ended
    obtain ⟨rfl, rfl⟩ := Prod.mk.inj ended
    exact ⟨[], rfl, rfl, .inl rfl⟩

theorem isSequential_byte : Read.byte.IsSequential :=
  (isSequential_take 1).map fun bytes : List UInt8 => bytes.headD 0

theorem isSequential_length : length.IsSequential :=
  (isSequential_take 4).map Word.natOfBytes

theorem isSequential_prefixed : prefixed.IsSequential :=
  isSequential_length.bind isSequential_take

theorem IsSequential.repeated {read : Read α} (sequential : read.IsSequential) (count : Nat) :
    (read.repeated count).IsSequential := by
  induction count with
  | zero => exact isSequential_pure []
  | succ count ih => exact sequential.bind fun value => ih.map fun values => value :: values

/-! ## From the start of a buffer -/

theorem IsSequential.append {read : Read α} (sequential : read.IsSequential)
    {bytes : List UInt8} {result : Except CodecError α} {after : Reader}
    (ended : read (.ofBytes bytes) = (result, after)) (decided : result ≠ .error .outOfBounds)
    (rest : List UInt8) :
    read (.ofBytes (bytes ++ rest)) = (result, ⟨after.position, after.rest ++ rest⟩) := by
  obtain ⟨passed, split, moved, known⟩ := sequential _ _ _ ended
  have gives := (known.resolve_left decided).1
  calc
    read (.ofBytes (bytes ++ rest)) = read ⟨0, passed ++ (after.rest ++ rest)⟩ := by
      rw [Reader.ofBytes, ← List.append_assoc, ← split, Reader.ofBytes]
    _ = (result, ⟨0 + passed.length, after.rest ++ rest⟩) := gives 0 (after.rest ++ rest)
    _ = (result, ⟨after.position, after.rest ++ rest⟩) := by rw [moved, Reader.ofBytes]

theorem IsSequential.truncate {read : Read α} (sequential : read.IsSequential)
    {bytes : List UInt8} {result : Except CodecError α} {after : Reader}
    (ended : read (.ofBytes bytes) = (result, after)) (decided : result ≠ .error .outOfBounds)
    {count : Nat} (short : count < after.position) :
    (read (.ofBytes (bytes.take count))).1 = .error .outOfBounds := by
  obtain ⟨passed, split, moved, known⟩ := sequential _ _ _ ended
  have bound : count < passed.length := by simpa [moved, Reader.ofBytes] using short
  have front : bytes.take count = passed.take count := by
    show List.take count (Reader.ofBytes bytes).rest = _
    rw [split, List.take_append_of_le_length (Nat.le_of_lt bound)]
  rw [front]
  refine (known.resolve_left decided).2 _ (passed.drop count) (List.take_append_drop ..) ?_ 0
  rw [Ne, List.drop_eq_nil_iff, Nat.not_le]
  exact bound

end Read

namespace Codec

theorem isSequential_parseFlag (invalid : UInt8 → CodecError) :
    (parseFlag invalid).IsSequential := by
  apply Read.isSequential_byte.bind
  intro byte
  split
  next => exact Read.isSequential_pure false
  next => exact Read.isSequential_pure true
  next => exact Read.isSequential_fail _

theorem isSequential_parseString : parseString.IsSequential := by
  apply Read.isSequential_prefixed.bind
  intro content
  split
  next text _ => exact Read.isSequential_pure (Tree.string text)
  next => exact Read.isSequential_fail _

theorem isSequential_parsePrimitive (p : Primitive) : (parsePrimitive p).IsSequential := by
  cases p with
  | bool => exact (isSequential_parseFlag _).map Tree.bool
  | unsigned width => exact (Read.isSequential_take width.bytes).map _
  | signed width => exact (Read.isSequential_take width.bytes).map _
  | single => exact (Read.isSequential_take 4).map _
  | double => exact (Read.isSequential_take 8).map _
  | string => exact isSequential_parseString
  | bytes => exact Read.isSequential_prefixed.map Tree.bytes
  | publicKey => exact (Read.isSequential_take 32).map Tree.bytes

section

variable {named : String → Read Tree}

mutual

theorem isSequential_parseWith (hop : ∀ name, (named name).IsSequential) :
    (layout : Layout) → (parseWith named layout).IsSequential
  | .primitive p => isSequential_parsePrimitive p
  | .vec item => Read.isSequential_length.bind fun count =>
      ((isSequential_parseWith hop item).repeated count).map Tree.list
  | .array item length => ((isSequential_parseWith hop item).repeated length).map Tree.list
  | .option item => by
    apply (isSequential_parseFlag _).bind
    intro flag
    cases flag with
    | false => exact Read.isSequential_pure _
    | true => exact (isSequential_parseWith hop item).map _
  | .hashMap key value => by
    apply Read.isSequential_length.bind
    intro count
    have entry := (isSequential_parseWith hop key).bind fun first =>
      (isSequential_parseWith hop value).map fun second => (first, second)
    exact (entry.repeated count).map Tree.map
  | .struct fields => (isSequential_parseFields hop fields).map Tree.record
  | .enum variants => by
    apply Read.isSequential_byte.bind
    intro tag
    split
    next payloadRead found => exact isSequential_parseVariant hop variants tag.toNat found
    next => exact Read.isSequential_fail _
  | .defined name => hop name
termination_by structural layout => layout

theorem isSequential_parseFields (hop : ∀ name, (named name).IsSequential) :
    (fields : List (String × Layout)) → (parseFields named fields).IsSequential
  | [] => Read.isSequential_pure []
  | (key, layout) :: rest => (isSequential_parseWith hop layout).bind fun tree =>
      (isSequential_parseFields hop rest).map fun entries => (key, tree) :: entries
termination_by structural fields => fields

theorem isSequential_parseVariant (hop : ∀ name, (named name).IsSequential) :
    (variants : List (String × Layout)) → (index : Nat) → {payloadRead : Read Tree} →
      parseVariant named variants index = some payloadRead → payloadRead.IsSequential
  | [], _, _, found => by cases found
  | (key, layout) :: _, 0, _, found => by
    rw [← Option.some.inj found]
    exact (isSequential_parseWith hop layout).map (Tree.variant key)
  | _ :: rest, index + 1, _, found => isSequential_parseVariant hop rest index found
termination_by structural variants => variants

end

end

theorem isSequential_parseWithin (registry : Registry) (budget : Nat) (layout : Layout) :
    (parseWithin registry budget layout).IsSequential := by
  induction budget generalizing layout with
  | zero => exact isSequential_parseWith (fun _ => Read.isSequential_fail _) layout
  | succ budget ih =>
    refine isSequential_parseWith (fun name => ?_) layout
    cases Record.get? registry name with
    | none => exact Read.isSequential_fail _
    | some target => exact ih target

end Codec

/-! ## One operation after another -/

namespace Reader

inductive Operation where
  | byte
  | take (count : Nat)
  | length
  | prefixed
  | parse (layout : Layout) (registry : Registry)

/-- The reader after an operation, be it a failed one. -/
def Operation.next (reader : Reader) : Operation → Reader
  | byte => (Read.byte reader).2
  | take count => (Read.take count reader).2
  | length => (Read.length reader).2
  | prefixed => (Read.prefixed reader).2
  | parse layout registry => (layout.parseFrom registry reader).2

def run (reader : Reader) (operations : List Operation) : Reader :=
  operations.foldl Operation.next reader

structure StandsIn (bytes : List UInt8) (reader : Reader) : Prop where
  bound : reader.position ≤ bytes.length
  rest : reader.rest = bytes.drop reader.position

theorem standsIn_ofBytes (bytes : List UInt8) : (ofBytes bytes).StandsIn bytes :=
  ⟨Nat.zero_le _, rfl⟩

theorem StandsIn.position_add_remaining {bytes : List UInt8} {reader : Reader}
    (stands : reader.StandsIn bytes) : reader.position + reader.remaining = bytes.length := by
  have bound := stands.bound
  rw [remaining, stands.rest, List.length_drop]
  omega

theorem StandsIn.of_isSequential {read : Read α} (sequential : read.IsSequential)
    {bytes : List UInt8} {reader : Reader} (stands : reader.StandsIn bytes) :
    (read reader).2.StandsIn bytes ∧ reader.position ≤ (read reader).2.position := by
  obtain ⟨passed, split, moved, -⟩ := sequential reader _ _ rfl
  have total := stands.position_add_remaining
  rw [remaining, split, List.length_append] at total
  refine ⟨⟨?_, ?_⟩, ?_⟩
  · omega
  · rw [moved, ← List.drop_drop, ← stands.rest, split, List.drop_left]
  · omega

theorem StandsIn.next {bytes : List UInt8} {reader : Reader} (stands : reader.StandsIn bytes)
    (operation : Operation) :
    (operation.next reader).StandsIn bytes ∧
      reader.position ≤ (operation.next reader).position := by
  cases operation with
  | byte => exact stands.of_isSequential Read.isSequential_byte
  | take count => exact stands.of_isSequential (Read.isSequential_take count)
  | length => exact stands.of_isSequential Read.isSequential_length
  | prefixed => exact stands.of_isSequential Read.isSequential_prefixed
  | parse layout registry =>
    exact stands.of_isSequential (Codec.isSequential_parseWithin registry maxDepth layout)

theorem StandsIn.run {bytes : List UInt8} {reader : Reader} (stands : reader.StandsIn bytes)
    (operations : List Operation) :
    (reader.run operations).StandsIn bytes ∧
      reader.position ≤ (reader.run operations).position := by
  induction operations generalizing reader with
  | nil => exact ⟨stands, Nat.le_refl _⟩
  | cons operation rest ih =>
    obtain ⟨inside, forward⟩ := stands.next operation
    obtain ⟨stays, further⟩ := ih inside
    exact ⟨stays, Nat.le_trans forward further⟩

theorem run_append (reader : Reader) (operations more : List Operation) :
    reader.run (operations ++ more) = (reader.run operations).run more :=
  List.foldl_append

end Reader

namespace Layout

/-- Reading a tree depends on the bytes that it passes, and bounds come before content: more bytes
after them change nothing, and if one of them is missing, there are too few. The operations of a
reader go forward within its buffer, also when they fail. -/
theorem parseFrom_local (layout : Layout) (registry : Registry) (bytes : List UInt8) :
    (∀ tree after, layout.parseFrom registry (.ofBytes bytes) = (.ok tree, after) →
      (∀ rest, layout.parseFrom registry (.ofBytes (bytes ++ rest)) =
        (.ok tree, ⟨after.position, after.rest ++ rest⟩)) ∧
      ∀ count < after.position,
        (layout.parseFrom registry (.ofBytes (bytes.take count))).1 = .error .outOfBounds) ∧
    (∀ error after, layout.parseFrom registry (.ofBytes bytes) = (.error error, after) →
      error ≠ .outOfBounds →
      ∀ rest, layout.parseFrom registry (.ofBytes (bytes ++ rest)) =
        (.error error, ⟨after.position, after.rest ++ rest⟩)) ∧
    ∀ operations more,
      ((Reader.ofBytes bytes).run operations).position ≤
          ((Reader.ofBytes bytes).run (operations ++ more)).position ∧
        ((Reader.ofBytes bytes).run operations).position ≤ bytes.length ∧
        ((Reader.ofBytes bytes).run operations).position +
          ((Reader.ofBytes bytes).run operations).remaining = bytes.length ∧
        ((Reader.ofBytes bytes).run operations).rest =
          bytes.drop ((Reader.ofBytes bytes).run operations).position := by
  have sequential : (layout.parseFrom registry).IsSequential :=
    Codec.isSequential_parseWithin registry maxDepth layout
  refine ⟨fun tree after parsed => ⟨?_, ?_⟩, fun error after failed other => ?_,
    fun operations more => ?_⟩
  · exact sequential.append parsed (by simp)
  · exact fun count short => sequential.truncate parsed (by simp) short
  · exact sequential.append failed (by simpa using other)
  · have stands := ((Reader.standsIn_ofBytes bytes).run operations).1
    rw [Reader.run_append]
    exact ⟨(stands.run more).2, stands.bound, stands.position_add_remaining, stands.rest⟩

def nodes : Registry :=
  [("Node", .struct [("weight", .primitive .single), ("next", .option (.defined "Node"))])]

theorem parseFrom_local_node :
    (parseFrom (.defined "Node") nodes
        (.ofBytes ([0, 0, 192, 63, 1, 0, 0, 192, 63, 0] ++ [255])) =
          (.ok (.record [("weight", .float ⟨0x3ff8000000000000⟩),
            ("next", .option (some (.record [("weight", .float ⟨0x3ff8000000000000⟩),
              ("next", .option none)])))]), ⟨10, [255]⟩) ∧
      (parseFrom (.defined "Node") nodes (.ofBytes [0, 0, 192, 63, 1, 0, 0])).1 =
        .error .outOfBounds) ∧
    parseFrom (.defined "Node") nodes (.ofBytes ([0, 0, 192, 63, 2] ++ [255])) =
      (.error (.invalidOptionFlag 2), ⟨5, [255]⟩) := by
  have whole := parseFrom_local (.defined "Node") nodes [0, 0, 192, 63, 1, 0, 0, 192, 63, 0]
  have broken := parseFrom_local (.defined "Node") nodes [0, 0, 192, 63, 2]
  obtain ⟨more, fewer⟩ := whole.1 (.record [("weight", .float ⟨0x3ff8000000000000⟩),
    ("next", .option (some (.record [("weight", .float ⟨0x3ff8000000000000⟩),
      ("next", .option none)])))]) ⟨10, []⟩ rfl
  exact ⟨⟨more [255], fewer 7 (by decide)⟩,
    broken.2.1 (.invalidOptionFlag 2) ⟨5, []⟩ rfl (by decide) [255]⟩

end Layout

end WireSchema
