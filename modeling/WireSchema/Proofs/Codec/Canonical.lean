import WireSchema.Codec.Parse
import WireSchema.Proofs.Codec.NormalForm
import WireSchema.Proofs.Codec.WellFormed

/-! What is read is written back as the same bytes. Single precision is where two patterns may
stand for one number: a NaN that signals is read as a quiet one, and is not found again. -/

namespace WireSchema

namespace Codec

def Restores (write : Tree → Emission) (bytes : List UInt8) (tree : Tree) : Prop :=
  tree.hasCanonicalNaNs = true → write tree = .ofBytes bytes

/-! ## Primitive layouts -/

theorem only_parseFlag (invalid : UInt8 → CodecError) :
    (parseFlag invalid).Only fun bytes flag => bytes = [if flag then 1 else 0] := by
  apply Read.only_byte.bind
  intro bytes byte same
  subst same
  split
  next => exact Read.only_pure rfl
  next => exact Read.only_pure rfl
  next => exact Read.only_fail _ _

theorem only_parseString :
    parseString.Only (Restores (encodePrimitive .string)) := by
  apply Read.only_prefixed.bind
  intro bytes content known
  obtain ⟨bound, rfl⟩ := known
  split
  next text decoded =>
    apply Read.only_pure
    intro _
    have same : text.toUTF8.data.toList = content := by
      unfold String.fromUTF8? at decoded
      split at decoded
      next valid =>
        rw [← Option.some.inj decoded]
        rfl
      next => cases decoded
    rw [List.append_nil]
    exact Emission.prefixed_eq_ofBytes.2 (by rw [same]; exact ⟨bound, rfl⟩)
  next => exact Read.only_fail _ _

theorem only_parsePrimitive (p : Primitive) :
    (parsePrimitive p).Only (Restores (encodePrimitive p)) := by
  cases p with
  | bool =>
    apply Read.Only.map Tree.bool
    apply (only_parseFlag _).mono
    intro bytes flag same
    subst same
    exact fun _ => rfl
  | unsigned width =>
    apply Read.Only.map _
    apply (Read.only_word width.bytes).mono
    intro bytes content known
    obtain ⟨sized, -, rfl⟩ := known
    have valid := width.containsNat_natOfBytes sized
    intro _
    rw [encodePrimitive, encodeUnsigned, Int.toNat_natCast,
      if_pos ⟨Int.natCast_nonneg _, valid⟩]
  | signed width =>
    apply Read.Only.map _
    apply (Read.only_take width.bytes).mono
    intro bytes content taken
    obtain ⟨rfl, sized⟩ := taken
    intro _
    rw [encodePrimitive, encodeSigned, if_pos (width.containsInt_intOfBytes sized), ← sized,
      Word.bytesOfInt_intOfBytes]
  | single =>
    apply Read.Only.map _
    apply (Read.only_word 4).mono
    intro bytes content known
    obtain ⟨-, bound, rfl⟩ := known
    intro canonical
    have restored := Binary64.narrow_widen ((Tree.hasCanonicalNaNs_float _).1 canonical)
    rw [encodePrimitive, restored, UInt32.toNat_ofNat_of_lt' bound]
  | double =>
    apply Read.Only.map _
    apply (Read.only_word 8).mono
    intro bytes content known
    obtain ⟨-, bound, rfl⟩ := known
    intro _
    rw [encodePrimitive, UInt64.toNat_ofNat_of_lt' bound]
  | string => exact only_parseString
  | bytes =>
    apply Read.Only.map Tree.bytes
    apply Read.only_prefixed.mono
    intro bytes content known
    exact fun _ => Emission.prefixed_eq_ofBytes.2 known
  | publicKey =>
    apply Read.Only.map Tree.bytes
    apply (Read.only_take 32).mono
    intro bytes content taken
    obtain ⟨rfl, sized⟩ := taken
    intro _
    rw [encodePrimitive, if_pos sized]

/-! ## Composite layouts -/

theorem only_each {encode : α → Emission} {parse : Read α} {valid : α → Prop}
    (each : parse.Only fun bytes item => valid item → encode item = .ofBytes bytes) (count : Nat) :
    (parse.repeated count).Only fun bytes items => items.length = count ∧
      ((∀ item ∈ items, valid item) → Emission.sequence (items.map encode) = .ofBytes bytes) := by
  apply (Read.only_repeated each count).mono
  intro bytes items known
  obtain ⟨sized, parts, rfl, all⟩ := known
  refine ⟨sized, fun valid => Emission.sequence_eq_ofBytes.2 ⟨parts, rfl, ?_⟩⟩
  rw [List.forall₂_map_left_iff]
  clear sized
  induction all with
  | nil => exact .nil
  | cons met _ ih =>
    obtain ⟨head, tail⟩ := List.forall_mem_cons.1 valid
    exact .cons (met head) (ih tail)

theorem only_counted (encode : α → Emission) {parse : Read α} (valid : α → Prop)
    (each : parse.Only fun bytes item => valid item → encode item = .ofBytes bytes)
    (wrap : List α → Tree) {condition : List UInt8 → Tree → Prop}
    (met : ∀ bytes items,
      ((∀ item ∈ items, valid item) →
        (Emission.length items.length).andThen (.sequence (items.map encode)) = .ofBytes bytes) →
      condition bytes (wrap items)) :
    (Read.length >>= fun count => parse.repeated count >>= fun items => pure (wrap items)).Only
      condition := by
  apply Read.only_length.bind
  intro head count known
  obtain ⟨bound, rfl⟩ := known
  apply Read.Only.map wrap
  apply (only_each each count).mono
  intro tail items known
  obtain ⟨rfl, written⟩ := known
  refine met _ _ fun valid => Emission.andThen_eq_ofBytes.2 ⟨_, tail, ?_, written valid, rfl⟩
  exact Emission.length_eq_ofBytes.2 ⟨bound, rfl⟩

theorem encodeTag_toNat (tag : UInt8) : encodeTag tag.toNat = .ofBytes [tag] := by
  rw [encodeTag, if_pos tag.toNat_lt, UInt8.ofNat_toNat]

section

variable {write : String → Tree → Emission} {read : String → Read Tree}

/- Follows the recursion of reading. Keys that stand twice would make records shorter than they
were read, and are excluded. -/
mutual

theorem only_parseWith (hop : ∀ name, (read name).Only (Restores (write name))) :
    (layout : Layout) → layout.hasDistinctKeys = true →
      (parseWith read layout).Only (Restores (encodeWith write layout))
  | .primitive p, _ => only_parsePrimitive p
  | .vec item, distinct => by
    refine only_counted _ _ (only_parseWith hop item distinct) Tree.list
      fun bytes items written => ?_
    exact fun canonical => written ((Tree.hasCanonicalNaNs_list items).1 canonical)
  | .array item length, distinct => by
    apply Read.Only.map Tree.list
    apply (only_each (only_parseWith hop item distinct) length).mono
    intro bytes items known
    obtain ⟨sized, written⟩ := known
    intro canonical
    simp only [encodeWith, if_pos sized]
    exact written ((Tree.hasCanonicalNaNs_list items).1 canonical)
  | .option item, distinct => by
    apply (only_parseFlag _).bind
    intro head flag same
    subst same
    cases flag with
    | false => exact Read.only_pure fun _ => rfl
    | true =>
      apply Read.Only.map (fun tree => Tree.option (some tree))
      apply (only_parseWith hop item distinct).mono
      intro bytes tree restores canonical
      rw [Tree.hasCanonicalNaNs_option] at canonical
      simp only [encodeWith, restores canonical]
      rfl
  | .hashMap key value, distinct => by
    obtain ⟨first, second⟩ := Bool.and_eq_true_iff.1 distinct
    refine only_counted
      (fun entry => (encodeWith write key entry.1).andThen (encodeWith write value entry.2))
      (fun entry => entry.1.hasCanonicalNaNs = true ∧ entry.2.hasCanonicalNaNs = true)
      ?_ Tree.map fun bytes entries written => ?_
    · apply (only_parseWith hop key first).bind
      intro head keyTree keyRestores
      apply Read.Only.map (fun tree => (keyTree, tree))
      apply (only_parseWith hop value second).mono
      intro tail valueTree valueRestores
      rintro ⟨keyCanonical, valueCanonical⟩
      exact Emission.andThen_eq_ofBytes.2
        ⟨head, tail, keyRestores keyCanonical, valueRestores valueCanonical, rfl⟩
    · exact fun canonical => written ((Tree.hasCanonicalNaNs_map entries).1 canonical)
  | .struct fields, distinct => by
    obtain ⟨keys, parts⟩ := Bool.and_eq_true_iff.1 distinct
    apply Read.Only.map Tree.record
    apply (only_parseFields hop fields (of_decide_eq_true keys) parts).mono
    intro bytes entries known canonical
    exact known.2 ((Tree.hasCanonicalNaNs_record entries).1 canonical) entries fun _ _ => rfl
  | .enum variants, distinct => by
    obtain ⟨keys, parts⟩ := Bool.and_eq_true_iff.1 distinct
    apply Read.only_byte.bind
    intro head tag same
    subst same
    split
    next payloadRead found =>
      refine (only_parseVariant hop variants (of_decide_eq_true keys) parts tag.toNat payloadRead
        found).mono fun bytes tree known => ?_
      obtain ⟨kind, payload, rfl, -, chosen⟩ := known
      intro canonical
      have payloadCanonical : payload.hasCanonicalNaNs = true :=
        (Tree.hasCanonicalNaNs_record _).1 canonical (kind, payload) (List.mem_singleton_self _)
      simp only [Tree.variant, encodeWith, chosen payloadCanonical 0, Nat.zero_add,
        encodeTag_toNat]
      rfl
    next => exact Read.only_fail _ _
  | .defined name, _ => hop name
termination_by structural layout => layout

/-- Writing looks fields up by key, and so any record that agrees with the one that was read
will do. -/
theorem only_parseFields (hop : ∀ name, (read name).Only (Restores (write name))) :
    (fields : List (String × Layout)) → (Record.keys fields).Nodup →
      Layout.haveDistinctKeys fields = true →
      (parseFields read fields).Only fun bytes entries =>
        Record.keys entries = Record.keys fields ∧
        ((∀ entry ∈ entries, entry.2.hasCanonicalNaNs = true) →
          ∀ record : Record Tree,
            (∀ key ∈ Record.keys fields, Record.get? record key = Record.get? entries key) →
            encodeFields write fields record = .ofBytes bytes)
  | [], _, _ => Read.only_pure ⟨rfl, fun _ _ _ => rfl⟩
  | (key, layout) :: rest, distinct, parts => by
    obtain ⟨fresh, others⟩ := List.nodup_cons.1 distinct
    obtain ⟨first, remaining⟩ := Bool.and_eq_true_iff.1 parts
    apply (only_parseWith hop layout first).bind
    intro head tree restores
    apply Read.Only.map (fun entries => (key, tree) :: entries)
    apply (only_parseFields hop rest others remaining).mono
    intro tail entries known
    obtain ⟨keys, written⟩ := known
    refine ⟨congrArg (key :: ·) keys, fun canonical record agrees => ?_⟩
    obtain ⟨headCanonical, tailCanonical⟩ := List.forall_mem_cons.1 canonical
    have found : Record.get? record key = some tree := by
      rw [agrees key List.mem_cons_self, Record.get?_cons, if_pos rfl]
    have below : ∀ key' ∈ Record.keys rest, Record.get? record key' = Record.get? entries key' := by
      intro key' member
      rw [agrees key' (List.mem_cons_of_mem _ member), Record.get?_cons, if_neg]
      rintro rfl
      exact fresh member
    simp only [encodeFields, found]
    exact Emission.andThen_eq_ofBytes.2
      ⟨head, tail, restores headCanonical, written tailCanonical record below, rfl⟩
termination_by structural fields => fields

/-- A kind stands once, and so looking it up leads back to the index it was read from. -/
theorem only_parseVariant (hop : ∀ name, (read name).Only (Restores (write name))) :
    (variants : List (String × Layout)) → (Record.keys variants).Nodup →
      Layout.haveDistinctKeys variants = true →
      (index : Nat) → (payloadRead : Read Tree) →
      parseVariant read variants index = some payloadRead →
      payloadRead.Only fun bytes tree => ∃ kind payload, tree = .variant kind payload ∧
        kind ∈ Record.keys variants ∧
        (payload.hasCanonicalNaNs = true → ∀ position,
          encodeVariant write variants position kind payload =
            some ((encodeTag (position + index)).andThen (.ofBytes bytes)))
  | [], _, _, _, _, found => by cases found
  | (key, layout) :: rest, _, parts, 0, payloadRead, found => by
    obtain ⟨first, -⟩ := Bool.and_eq_true_iff.1 parts
    rw [← Option.some.inj found]
    apply Read.Only.map (Tree.variant key)
    apply (only_parseWith hop layout first).mono
    intro bytes payload restores
    refine ⟨key, payload, rfl, List.mem_cons_self, fun canonical position => ?_⟩
    simp only [encodeVariant, if_pos, restores canonical, Nat.add_zero]
  | (key, layout) :: rest, distinct, parts, index + 1, payloadRead, found => by
    obtain ⟨fresh, others⟩ := List.nodup_cons.1 distinct
    obtain ⟨-, remaining⟩ := Bool.and_eq_true_iff.1 parts
    refine (only_parseVariant hop rest others remaining index payloadRead found).mono
      fun bytes tree known => ?_
    obtain ⟨kind, payload, rfl, member, chosen⟩ := known
    refine ⟨kind, payload, rfl, List.mem_cons_of_mem _ member, fun canonical position => ?_⟩
    have other : key ≠ kind := by
      rintro rfl
      exact fresh member
    rw [encodeVariant, if_neg other, chosen canonical (position + 1), Nat.add_assoc,
      Nat.add_comm 1]
termination_by structural variants => variants

end

end

theorem only_parseWithin {registry : Registry} (distinct : registry.hasDistinctKeys = true)
    (budget : Nat) {layout : Layout} (layoutDistinct : layout.hasDistinctKeys = true) :
    (parseWithin registry budget layout).Only (Restores (encodeWithin registry budget layout)) := by
  induction budget generalizing layout with
  | zero => exact only_parseWith (fun _ => Read.only_fail _ _) layout layoutDistinct
  | succ budget ih =>
    refine only_parseWith (fun name => ?_) layout layoutDistinct
    cases found : Record.get? registry name with
    | none => exact Read.only_fail _ _
    | some target => exact ih (Layout.hasDistinctKeys_of_get? distinct found)

end Codec

namespace Layout

theorem parse_eq_ok {layout : Layout} {registry : Registry} {bytes : List UInt8} {tree : Tree} :
    layout.parse registry bytes = .ok tree ↔
      ∃ position, layout.parseFrom registry ⟨0, bytes⟩ = (.ok tree, ⟨position, []⟩) := by
  rw [parse, Reader.ofBytes]
  rcases layout.parseFrom registry ⟨0, bytes⟩ with ⟨_ | result, position, rest⟩
  · simp
  · cases rest with
    | nil => simp [Reader.remaining]
    | cons byte rest => simp [Reader.remaining]

theorem parse_of_encode {layout : Layout} {registry : Registry} {tree : Tree} {bytes : List UInt8}
    (encoded : layout.encode registry tree = .ok bytes) :
    layout.parse registry bytes = .ok (layout.normalForm registry tree) := by
  have read := takes_of_emit (encode_eq_ok.1 encoded) 0 []
  rw [List.append_nil] at read
  exact parse_eq_ok.2 ⟨_, read⟩

theorem encode_of_parseFrom {layout : Layout} {registry : Registry}
    (distinct : registry.hasDistinctKeys = true) (layoutDistinct : layout.hasDistinctKeys = true)
    {reader after : Reader} {tree : Tree}
    (parsed : layout.parseFrom registry reader = (.ok tree, after))
    (canonical : tree.hasCanonicalNaNs = true) :
    ∃ bytes, reader.rest = bytes ++ after.rest ∧
      after.position = reader.position + bytes.length ∧
      layout.encode registry tree = .ok bytes := by
  obtain ⟨bytes, split, moved, restores⟩ :=
    Codec.only_parseWithin distinct maxDepth layoutDistinct reader tree after parsed
  exact ⟨bytes, split, moved, encode_eq_ok.2 (restores canonical)⟩

theorem encode_of_parse {layout : Layout} {registry : Registry}
    (distinct : registry.hasDistinctKeys = true) (layoutDistinct : layout.hasDistinctKeys = true)
    {bytes : List UInt8} {tree : Tree} (parsed : layout.parse registry bytes = .ok tree)
    (canonical : tree.hasCanonicalNaNs = true) : layout.encode registry tree = .ok bytes := by
  obtain ⟨position, read⟩ := parse_eq_ok.1 parsed
  obtain ⟨consumed, split, -, encoded⟩ :=
    encode_of_parseFrom distinct layoutDistinct read canonical
  rw [List.append_nil] at split
  rwa [← split] at encoded

/-- Whether the canonical NaN is the only one that bytes hold, if they can be read at all. -/
def hasCanonicalNaNs (layout : Layout) (registry : Registry) (bytes : List UInt8) : Bool :=
  match layout.parse registry bytes with
  | .ok tree => tree.hasCanonicalNaNs
  | .error _ => true

theorem hasCanonicalNaNs_of_parse {layout : Layout} {registry : Registry} {bytes : List UInt8}
    {tree : Tree} (canonical : layout.hasCanonicalNaNs registry bytes = true)
    (parsed : layout.parse registry bytes = .ok tree) : tree.hasCanonicalNaNs = true := by
  rwa [hasCanonicalNaNs, parsed] at canonical

/-- What is read is written back as the bytes that were taken, and so the byte strings that can be
read are those that can be written. Registries and the parts of a layout are ordered maps, and so
their keys are distinct; names may lead back to themselves. -/
theorem parse_ok_iff_encoding (registry : Registry) (layout : Layout)
    (distinct : registry.hasDistinctKeys = true) (layoutDistinct : layout.hasDistinctKeys = true) :
    (∀ reader tree after, layout.parseFrom registry reader = (.ok tree, after) →
      tree.hasCanonicalNaNs = true →
      ∃ bytes, reader.rest = bytes ++ after.rest ∧
        after.position = reader.position + bytes.length ∧
        layout.encode registry tree = .ok bytes) ∧
    ∀ bytes, layout.hasCanonicalNaNs registry bytes = true →
      ((∃ tree, layout.parse registry bytes = .ok tree) ↔
        ∃ tree, layout.encode registry tree = .ok bytes) := by
  refine ⟨fun _ _ _ => encode_of_parseFrom distinct layoutDistinct, fun bytes canonical => ?_⟩
  constructor
  · rintro ⟨tree, parsed⟩
    exact ⟨tree, encode_of_parse distinct layoutDistinct parsed
      (hasCanonicalNaNs_of_parse canonical parsed)⟩
  · rintro ⟨tree, encoded⟩
    exact ⟨_, parse_of_encode encoded⟩

theorem parse_ok_iff_encoding_node :
    parseFrom (.defined "Node") [("Node",
        .struct [("weight", .primitive .single), ("next", .option (.defined "Node"))])]
      ⟨0, [0, 0, 192, 63, 0, 255]⟩ =
        (.ok (.record [("weight", .float ⟨0x3ff8000000000000⟩), ("next", .option none)]),
          ⟨5, [255]⟩) ∧
    encode (.defined "Node") [("Node",
        .struct [("weight", .primitive .single), ("next", .option (.defined "Node"))])]
      (.record [("weight", .float ⟨0x3ff8000000000000⟩), ("next", .option none)]) =
        .ok [0, 0, 192, 63, 0] := by
  refine (and_iff_left_of_imp fun parsed => ?_).2 rfl
  obtain ⟨bytes, split, -, encoded⟩ :=
    (parse_ok_iff_encoding _ _ (by decide) (by decide)).1 _ _ _ parsed (by decide)
  obtain rfl : [0, 0, 192, 63, 0] = bytes := List.append_cancel_right split
  exact encoded

end Layout

end WireSchema
