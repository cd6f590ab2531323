import WireSchema.Codec.Parse
import WireSchema.Proofs.Codec.Reading
import WireSchema.Proofs.Codec.Writing

/-! Normal forms of trees, and reading back what was written. Writing forgets which kind of
integer stood under an integer layout, the digits that single precision does not hold, and the
order and the surplus keys of records. The normal form is what remains, and what reading gives. -/

namespace WireSchema

namespace Codec

def normalPrimitive : Primitive → Tree → Tree
  | .unsigned _, .signed i => .unsigned i.toNat
  | .signed _, .unsigned n => .signed n
  | .single, .float x => .float x.toSingle
  | _, tree => tree

mutual

/-- The normal form under a layout, leaving named types to `named`. A tree that does not fit
the layout is its own normal form. -/
def normalWith (named : String → Tree → Tree) : Layout → Tree → Tree
  | .primitive p, tree => normalPrimitive p tree
  | .vec item, tree | .array item _, tree =>
    match tree with
    | .list items => .list (items.map (normalWith named item))
    | tree => tree
  | .option item, tree =>
    match tree with
    | .option (some tree) => .option (some (normalWith named item tree))
    | tree => tree
  | .hashMap key value, tree =>
    match tree with
    | .map entries => .map (entries.map fun entry =>
        (normalWith named key entry.1, normalWith named value entry.2))
    | tree => tree
  | .struct fields, tree =>
    match tree with
    | .record record => .record (normalFields named fields record)
    | tree => tree
  | .enum variants, tree =>
    match tree with
    | .record [(kind, payload)] => .variant kind (normalPayload named variants kind payload)
    | tree => tree
  | .defined name, tree => named name tree
termination_by structural layout => layout

def normalFields (named : String → Tree → Tree) :
    List (String × Layout) → Record Tree → Record Tree
  | [], _ => []
  | (key, layout) :: rest, record =>
    match Record.get? record key with
    | some tree => (key, normalWith named layout tree) :: normalFields named rest record
    | none => normalFields named rest record
termination_by structural fields => fields

def normalPayload (named : String → Tree → Tree) : List (String × Layout) → String → Tree → Tree
  | [], _, payload => payload
  | (key, layout) :: rest, kind, payload =>
    if key = kind then normalWith named layout payload else normalPayload named rest kind payload
termination_by structural variants => variants

end

def normalWithin (registry : Registry) : Nat → Layout → Tree → Tree
  | 0 => normalWith fun _ tree => tree
  | budget + 1 => normalWith fun name tree =>
    match Record.get? registry name with
    | some layout => normalWithin registry budget layout tree
    | none => tree

/-! ## Primitive layouts -/

theorem takes_unsigned {layout : String} {width : Width} {value : Int} {bytes : List UInt8}
    (encoded : encodeUnsigned layout width value = .ofBytes bytes) :
    (parsePrimitive (.unsigned width)).Takes bytes (.unsigned value.toNat) := by
  unfold encodeUnsigned at encoded
  split at encoded
  next valid =>
    rw [← Emission.ofBytes_inj.1 encoded]
    have read := (Read.takes_take (Word.length_bytesOfNat width.bytes value.toNat)).map fun bytes =>
      Tree.unsigned (Word.natOfBytes bytes)
    rwa [Word.natOfBytes_bytesOfNat_of_lt ((width.containsNat_iff _).1 valid.2)] at read
  next => exact absurd encoded (Emission.fail_ne_ofBytes _ _)

theorem takes_signed {layout : String} {width : Width} {value : Int} {bytes : List UInt8}
    (encoded : encodeSigned layout width value = .ofBytes bytes) :
    (parsePrimitive (.signed width)).Takes bytes (.signed value) := by
  unfold encodeSigned at encoded
  split at encoded
  next valid =>
    rw [← Emission.ofBytes_inj.1 encoded]
    obtain ⟨lower, upper⟩ := (width.containsInt_iff value).1 valid
    have read := (Read.takes_take (Word.length_bytesOfInt width.bytes value)).map fun bytes =>
      Tree.signed (Word.intOfBytes bytes)
    rwa [Word.intOfBytes_bytesOfInt width.bytes_pos lower upper] at read
  next => exact absurd encoded (Emission.fail_ne_ofBytes _ _)

theorem takes_flag (invalid : UInt8 → CodecError) (flag : Bool) :
    (parseFlag invalid).Takes [if flag then 1 else 0] flag := by
  cases flag <;> exact (Read.takes_byte _).bind (Read.takes_pure _)

theorem fromUTF8?_toUTF8 (text : String) : String.fromUTF8? text.toUTF8 = some text := by
  rw [String.toUTF8_eq_toByteArray, String.fromUTF8?, dif_pos text.isValidUTF8]
  rfl

theorem takes_string {text : String} {bytes : List UInt8}
    (encoded : Emission.prefixed text.toUTF8.data.toList = .ofBytes bytes) :
    parseString.Takes bytes (.string text) := by
  obtain ⟨bound, rfl⟩ := Emission.prefixed_eq_ofBytes.1 encoded
  have decoded : String.fromUTF8? ⟨text.toUTF8.data.toList.toArray⟩ = some text := by
    rw [Array.toArray_toList]
    exact fromUTF8?_toUTF8 text
  rw [← List.append_nil (_ ++ _)]
  apply (Read.takes_prefixed bound).bind
  simp only [decoded]
  exact Read.takes_pure _

theorem takes_of_encodePrimitive {p : Primitive} {tree : Tree} {bytes : List UInt8}
    (encoded : encodePrimitive p tree = .ofBytes bytes) :
    (parsePrimitive p).Takes bytes (normalPrimitive p tree) := by
  unfold encodePrimitive at encoded
  split at encoded
  next flag =>
    rw [← Emission.ofBytes_inj.1 encoded]
    exact (takes_flag _ flag).map Tree.bool
  next => exact takes_unsigned encoded
  next => exact takes_unsigned encoded
  next => exact takes_signed encoded
  next => exact takes_signed encoded
  next x =>
    rw [← Emission.ofBytes_inj.1 encoded]
    have read := (Read.takes_take (Word.length_bytesOfNat 4 x.narrow.toNat)).map fun bytes =>
      Tree.float (Binary64.widen (UInt32.ofNat (Word.natOfBytes bytes)))
    rwa [Word.natOfBytes_bytesOfNat_of_lt x.narrow.toNat_lt, UInt32.ofNat_toNat] at read
  next x =>
    rw [← Emission.ofBytes_inj.1 encoded]
    have read := (Read.takes_take (Word.length_bytesOfNat 8 x.bits.toNat)).map fun bytes =>
      Tree.float ⟨UInt64.ofNat (Word.natOfBytes bytes)⟩
    rwa [Word.natOfBytes_bytesOfNat_of_lt x.bits.toNat_lt, UInt64.ofNat_toNat] at read
  next => exact takes_string encoded
  next content =>
    obtain ⟨bound, rfl⟩ := Emission.prefixed_eq_ofBytes.1 encoded
    exact (Read.takes_prefixed bound).map Tree.bytes
  next content =>
    split at encoded
    next size =>
      rw [← Emission.ofBytes_inj.1 encoded]
      exact (Read.takes_take size).map Tree.bytes
    next => exact absurd encoded (Emission.fail_ne_ofBytes _ _)
  next => exact absurd encoded (Emission.fail_ne_ofBytes _ _)

/-! ## Composite layouts -/

theorem takes_each {encode : α → Emission} {parse : Read β} {form : α → β}
    (each : ∀ item bytes, encode item = .ofBytes bytes → parse.Takes bytes (form item))
    {items : List α} {bytes : List UInt8}
    (encoded : Emission.sequence (items.map encode) = .ofBytes bytes) :
    (parse.repeated items.length).Takes bytes (items.map form) := by
  obtain ⟨parts, rfl, all⟩ := Emission.sequence_eq_ofBytes.1 encoded
  have values : List.Forall₂ parse.Takes parts (items.map form) :=
    List.forall₂_map_right_iff.2
      ((List.forall₂_map_left_iff.1 all).imp fun item part => each item part).flip
  simpa using Read.takes_repeated values

theorem takes_counted {encode : α → Emission} {parse : Read β} {form : α → β}
    (each : ∀ item bytes, encode item = .ofBytes bytes → parse.Takes bytes (form item))
    (wrap : List β → Tree) {items : List α} {bytes : List UInt8}
    (encoded : (Emission.length items.length).andThen (.sequence (items.map encode)) =
      .ofBytes bytes) :
    (Read.length >>= fun count => parse.repeated count >>= fun items => pure (wrap items)).Takes
      bytes (wrap (items.map form)) := by
  obtain ⟨head, tail, counted, rest, rfl⟩ := Emission.andThen_eq_ofBytes.1 encoded
  obtain ⟨bound, rfl⟩ := Emission.length_eq_ofBytes.1 counted
  exact (Read.takes_length bound).bind ((takes_each each rest).map wrap)

theorem takes_tag {position : Nat} {bytes : List UInt8}
    (encoded : encodeTag position = .ofBytes bytes) :
    ∃ tag : UInt8, tag.toNat = position ∧ Read.byte.Takes bytes tag := by
  unfold encodeTag at encoded
  split at encoded
  next bound =>
    rw [← Emission.ofBytes_inj.1 encoded]
    exact ⟨UInt8.ofNat position, UInt8.toNat_ofNat_of_lt' bound, Read.takes_byte _⟩
  next => exact absurd encoded (Emission.fail_ne_ofBytes _ _)

section

variable {write : String → Tree → Emission} {read : String → Read Tree}
  {normal : String → Tree → Tree}

/- Follows the recursion of writing. Names are taken care of by the hypothesis, so that the
layout alone gets smaller. -/
mutual

theorem takes_of_encodeWith
    (hop : ∀ name tree bytes, write name tree = .ofBytes bytes →
      (read name).Takes bytes (normal name tree)) :
    (layout : Layout) → (tree : Tree) → (bytes : List UInt8) →
      encodeWith write layout tree = .ofBytes bytes →
      (parseWith read layout).Takes bytes (normalWith normal layout tree)
  | .primitive p, tree, bytes, encoded => takes_of_encodePrimitive encoded
  | .vec item, tree, bytes, encoded => by
    cases tree with
    | list items =>
      exact takes_counted (takes_of_encodeWith hop item) Tree.list encoded
    | _ => exact absurd encoded (Emission.fail_ne_ofBytes _ _)
  | .array item length, tree, bytes, encoded => by
    cases tree with
    | list items =>
      simp only [encodeWith] at encoded
      split at encoded
      next exact =>
        subst exact
        exact (takes_each (takes_of_encodeWith hop item) encoded).map Tree.list
      next => exact absurd encoded (Emission.fail_ne_ofBytes _ _)
    | _ => exact absurd encoded (Emission.fail_ne_ofBytes _ _)
  | .option item, tree, bytes, encoded => by
    cases tree with
    | option inner =>
      cases inner with
      | none =>
        rw [← Emission.ofBytes_inj.1 encoded]
        exact (takes_flag _ false).bind (Read.takes_pure _)
      | some inner =>
        simp only [encodeWith] at encoded
        obtain ⟨head, tail, flagged, rest, rfl⟩ := Emission.andThen_eq_ofBytes.1 encoded
        rw [← Emission.ofBytes_inj.1 flagged]
        exact (takes_flag _ true).bind
          ((takes_of_encodeWith hop item inner tail rest).map fun tree => Tree.option (some tree))
    | _ => exact absurd encoded (Emission.fail_ne_ofBytes _ _)
  | .hashMap key value, tree, bytes, encoded => by
    cases tree with
    | map entries =>
      refine takes_counted (fun entry bytes written => ?_) Tree.map encoded
      obtain ⟨head, tail, first, second, rfl⟩ := Emission.andThen_eq_ofBytes.1 written
      exact (takes_of_encodeWith hop key _ head first).bind
        ((takes_of_encodeWith hop value _ tail second).map fun tree => (_, tree))
    | _ => exact absurd encoded (Emission.fail_ne_ofBytes _ _)
  | .struct fields, tree, bytes, encoded => by
    cases tree with
    | record record => exact (takes_of_encodeFields hop fields record bytes encoded).map Tree.record
    | _ => exact absurd encoded (Emission.fail_ne_ofBytes _ _)
  | .enum variants, tree, bytes, encoded => by
    simp only [encodeWith] at encoded
    split at encoded
    next kind payload =>
      split at encoded
      next emission chosen =>
        subst encoded
        obtain ⟨index, head, tail, payloadRead, rfl, tagged, found, takes⟩ :=
          takes_of_encodeVariant hop variants 0 kind payload bytes chosen
        rw [Nat.zero_add] at tagged
        obtain ⟨tag, rfl, tagRead⟩ := takes_tag tagged
        apply tagRead.bind
        simp only [found]
        exact takes
      next => exact absurd encoded (Emission.fail_ne_ofBytes _ _)
    next => exact absurd encoded (Emission.fail_ne_ofBytes _ _)
  | .defined name, tree, bytes, encoded => hop name tree bytes encoded
termination_by structural layout => layout

theorem takes_of_encodeFields
    (hop : ∀ name tree bytes, write name tree = .ofBytes bytes →
      (read name).Takes bytes (normal name tree)) :
    (fields : List (String × Layout)) → (record : Record Tree) → (bytes : List UInt8) →
      encodeFields write fields record = .ofBytes bytes →
      (parseFields read fields).Takes bytes (normalFields normal fields record)
  | [], record, bytes, encoded => by
    rw [← Emission.ofBytes_inj.1 encoded]
    exact Read.takes_pure _
  | (key, layout) :: rest, record, bytes, encoded => by
    unfold encodeFields at encoded
    split at encoded
    next tree found =>
      obtain ⟨head, tail, first, others, rfl⟩ := Emission.andThen_eq_ofBytes.1 encoded
      simp only [normalFields, found]
      exact (takes_of_encodeWith hop layout tree head first).bind
        ((takes_of_encodeFields hop rest record tail others).map fun fields => (key, _) :: fields)
    next => exact absurd encoded (Emission.fail_ne_ofBytes _ _)
termination_by structural fields => fields

/-- The tag that is written counts the variants that stand before the chosen one, and so it is
the index under which reading finds that one again. -/
theorem takes_of_encodeVariant
    (hop : ∀ name tree bytes, write name tree = .ofBytes bytes →
      (read name).Takes bytes (normal name tree)) :
    (variants : List (String × Layout)) → (position : Nat) → (kind : String) →
      (payload : Tree) → (bytes : List UInt8) →
      encodeVariant write variants position kind payload = some (.ofBytes bytes) →
      ∃ index head tail payloadRead, bytes = head ++ tail ∧
        encodeTag (position + index) = .ofBytes head ∧
        parseVariant read variants index = some payloadRead ∧
        payloadRead.Takes tail (.variant kind (normalPayload normal variants kind payload))
  | [], _, _, _, _, encoded => by cases encoded
  | (key, layout) :: rest, position, kind, payload, bytes, encoded => by
    unfold encodeVariant at encoded
    split at encoded
    next same =>
      subst same
      obtain ⟨head, tail, tagged, written, rfl⟩ :=
        Emission.andThen_eq_ofBytes.1 (Option.some.inj encoded)
      refine ⟨0, head, tail, _, rfl, tagged, rfl, ?_⟩
      simp only [normalPayload, if_pos]
      exact (takes_of_encodeWith hop layout payload tail written).map (Tree.variant key)
    next other =>
      obtain ⟨index, head, tail, payloadRead, rfl, tagged, found, takes⟩ :=
        takes_of_encodeVariant hop rest (position + 1) kind payload bytes encoded
      refine ⟨index + 1, head, tail, payloadRead, rfl, ?_, found, ?_⟩
      · rwa [Nat.add_assoc, Nat.add_comm 1] at tagged
      · simp only [normalPayload, if_neg other]
        exact takes
termination_by structural variants => variants

end

end

theorem takes_of_encodeWithin {registry : Registry} {budget : Nat} {layout : Layout} {tree : Tree}
    {bytes : List UInt8} (encoded : encodeWithin registry budget layout tree = .ofBytes bytes) :
    (parseWithin registry budget layout).Takes bytes
      (normalWithin registry budget layout tree) := by
  induction budget generalizing layout tree bytes with
  | zero =>
    refine takes_of_encodeWith (fun name tree bytes written => ?_) layout tree bytes encoded
    exact absurd written (Emission.fail_ne_ofBytes _ _)
  | succ budget ih =>
    refine takes_of_encodeWith (fun name tree bytes written => ?_) layout tree bytes encoded
    cases found : Record.get? registry name with
    | none =>
      rw [found] at written
      exact absurd written (Emission.fail_ne_ofBytes _ _)
    | some layout =>
      rw [found] at written
      exact ih written

end Codec

namespace Layout

def normalForm (layout : Layout) (registry : Registry) (tree : Tree) : Tree :=
  Codec.normalWithin registry maxDepth layout tree

theorem encode_eq_ok {layout : Layout} {registry : Registry} {tree : Tree} {bytes : List UInt8} :
    layout.encode registry tree = .ok bytes ↔ layout.emit registry tree = .ofBytes bytes :=
  Emission.toExcept_eq_ok

theorem takes_of_emit {layout : Layout} {registry : Registry} {tree : Tree} {bytes : List UInt8}
    (encoded : layout.emit registry tree = .ofBytes bytes) :
    (layout.parseFrom registry).Takes bytes (layout.normalForm registry tree) :=
  Codec.takes_of_encodeWithin encoded

/-- No encoding is the beginning of a longer one. -/
theorem encode_prefix_free {layout : Layout} {registry : Registry} {tree tree' : Tree}
    {bytes bytes' : List UInt8} (encoded : layout.encode registry tree = .ok bytes)
    (encoded' : layout.encode registry tree' = .ok bytes') (start : bytes <+: bytes') :
    bytes = bytes' := by
  obtain ⟨rest, rfl⟩ := start
  have short := takes_of_emit (encode_eq_ok.1 encoded) 0 rest
  have long := takes_of_emit (encode_eq_ok.1 encoded') 0 []
  -- Both read the same bytes from the start, and so they stop at the same place.
  rw [List.append_nil, short] at long
  obtain rfl : rest = [] := congrArg (Reader.rest ∘ Prod.snd) long
  exact (List.append_nil bytes).symm

/-- What one successful write adds does not depend on the writer. Reading takes it back in front
of any other bytes, stops right behind it, and gives the normal form. -/
theorem parseFrom_after_write (registry : Registry) (layout : Layout) :
    (∀ tree writer after, Writer.write writer (layout.emit registry tree) = (.ok (), after) →
      ∃ bytes,
        (∀ other, Writer.write other (layout.emit registry tree) =
          (.ok (), ⟨other.buffer ++ bytes⟩)) ∧
        ∀ position rest, layout.parseFrom registry ⟨position, bytes ++ rest⟩ =
          (.ok (layout.normalForm registry tree), ⟨position + bytes.length, rest⟩)) ∧
    ∀ tree tree' bytes bytes', layout.encode registry tree = .ok bytes →
      layout.encode registry tree' = .ok bytes' → bytes <+: bytes' → bytes = bytes' := by
  refine ⟨fun tree writer after written => ?_, fun _ _ _ _ => encode_prefix_free⟩
  obtain ⟨bytes, encoded⟩ := Writer.write_eq_ok.1 written
  refine ⟨bytes, fun other => ?_, takes_of_emit encoded.1⟩
  exact Writer.write_eq_ok.2 ⟨bytes, encoded.1, rfl⟩

/-- A cyclic registry. The integer has a sign, and the keys stand in another order with one too
many. -/
theorem parseFrom_after_write_node :
    Writer.write ⟨[9]⟩ (emit (.defined "Node") [("Node",
        .struct [("value", .primitive (.unsigned .w16)), ("next", .option (.defined "Node"))])]
      (.record [("note", .bool true), ("next", .option none), ("value", .signed 7)])) =
        (.ok (), ⟨[9, 7, 0, 0]⟩) ∧
    parseFrom (.defined "Node") [("Node",
        .struct [("value", .primitive (.unsigned .w16)), ("next", .option (.defined "Node"))])]
      ⟨0, [7, 0, 0, 255]⟩ =
        (.ok (.record [("value", .unsigned 7), ("next", .option none)]), ⟨3, [255]⟩) := by
  refine (and_iff_left_of_imp fun written => ?_).2 rfl
  obtain ⟨bytes, added, read⟩ := (parseFrom_after_write _ _).1 _ _ _ written
  obtain rfl : [7, 0, 0] = bytes := congrArg (Writer.buffer ∘ Prod.snd) (added .empty)
  exact read 0 [255]

end Layout

end WireSchema
