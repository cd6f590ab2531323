import Mathlib.Data.Finset.Card
import WireSchema.Layout.Size
import WireSchema.Proofs.Codec.NormalForm
import WireSchema.Proofs.Record

/-! Fixed sizes. A search that ends under some budget of names ends under the one that is given to
it, because each name more ends the search from a name of the registry for the first time. A size
that it finds is the length of whatever is written under the layout or read under it. -/

namespace WireSchema

namespace Read

/-- All that the read takes has the same length. -/
def HasSize (read : Read α) (size : Nat) : Prop :=
  read.Only fun bytes _ => bytes.length = size

theorem hasSize_pure (value : α) : (pure value : Read α).HasSize 0 :=
  only_pure rfl

theorem hasSize_fail (error : CodecError) (size : Nat) : (fail error : Read α).HasSize size :=
  only_fail error _

theorem hasSize_take (count : Nat) : (take count).HasSize count :=
  (only_take count).mono fun _ _ taken => taken.2

theorem hasSize_byte : Read.byte.HasSize 1 :=
  only_byte.mono fun _ _ taken => congrArg List.length taken

theorem HasSize.bind {first : Read α} {next : α → Read β} {size size' : Nat}
    (head : first.HasSize size) (tail : ∀ value, (next value).HasSize size') :
    (first >>= next).HasSize (size + size') := by
  apply Only.bind head
  intro bytes value sized
  apply (tail value).mono
  intro bytes' _ sized'
  rw [List.length_append, sized, sized']

theorem HasSize.map {read : Read α} {size : Nat} (f : α → β) (sized : read.HasSize size) :
    (read >>= fun value => pure (f value)).HasSize size :=
  sized.bind fun value => hasSize_pure (f value)

theorem HasSize.repeated {read : Read α} {size : Nat} (sized : read.HasSize size) (count : Nat) :
    (read.repeated count).HasSize (size * count) := by
  induction count with
  | zero => exact hasSize_pure []
  | succ count ih =>
    have both := sized.bind fun value => ih.map fun values => value :: values
    rwa [Nat.add_comm, ← Nat.mul_succ] at both

end Read

namespace Layout

/-! ## Where a search ends -/

def Search.Extends (search search' : Search) : Prop :=
  ∀ size, search = some size → search' = some size

section

variable {named named' : String → Search}

mutual

theorem extends_sizeWith (hop : ∀ name, (named name).Extends (named' name)) :
    (layout : Layout) → (sizeWith named layout).Extends (sizeWith named' layout)
  | .primitive _ => fun _ found => found
  | .vec _ => fun _ found => found
  | .option _ => fun _ found => found
  | .hashMap _ _ => fun _ found => found
  | .array item length => by
    intro size found
    obtain ⟨each, inner, rfl⟩ := Option.map_eq_some_iff.1 found
    exact Option.map_eq_some_iff.2 ⟨each, extends_sizeWith hop item each inner, rfl⟩
  | .struct fields => extends_sumWith hop fields
  | .enum variants => extends_choiceWith hop variants
  | .defined name => hop name
termination_by structural layout => layout

theorem extends_sumWith (hop : ∀ name, (named name).Extends (named' name)) :
    (fields : List (String × Layout)) → (sumWith named fields).Extends (sumWith named' fields)
  | [] => fun _ found => found
  | (_, layout) :: rest => by
    intro size found
    unfold sumWith at found ⊢
    split at found
    next => cases found
    next first => rwa [extends_sizeWith hop layout _ first]
    next each first =>
      rw [extends_sizeWith hop layout _ first]
      obtain ⟨total, below, rfl⟩ := Option.map_eq_some_iff.1 found
      exact Option.map_eq_some_iff.2 ⟨total, extends_sumWith hop rest total below, rfl⟩
termination_by structural fields => fields

theorem extends_choiceWith (hop : ∀ name, (named name).Extends (named' name)) :
    (variants : List (String × Layout)) →
      (choiceWith named variants).Extends (choiceWith named' variants)
  | [] => fun _ found => found
  | (_, layout) :: rest => by
    intro size found
    unfold choiceWith at found ⊢
    split at found
    next => cases found
    next first => rwa [extends_sizeWith hop layout _ first]
    next each first =>
      rw [extends_sizeWith hop layout _ first]
      exact extends_uniformWith hop each rest size found
termination_by structural variants => variants

theorem extends_uniformWith (hop : ∀ name, (named name).Extends (named' name)) (each : Nat) :
    (variants : List (String × Layout)) →
      (uniformWith named each variants).Extends (uniformWith named' each variants)
  | [] => fun _ found => found
  | (_, layout) :: rest => by
    intro size found
    unfold uniformWith at found ⊢
    split at found
    next => cases found
    next other first =>
      rw [extends_sizeWith hop layout _ first]
      split at found
      next same => exact (if_pos same).trans (extends_uniformWith hop each rest size found)
      next different => exact (if_neg different).trans found
termination_by structural variants => variants

end

end

def sizeOfName (registry : Registry) : Nat → String → Search
  | 0, _ => none
  | budget + 1, name =>
    match Record.get? registry name with
    | some layout => sizeWithin registry budget layout
    | none => some none

theorem sizeWithin_eq (registry : Registry) (budget : Nat) :
    sizeWithin registry budget = sizeWith (sizeOfName registry budget) := by
  cases budget <;> rfl

variable {registry : Registry}

theorem extends_sizeOfName (budget : Nat) (name : String) :
    (sizeOfName registry budget name).Extends (sizeOfName registry (budget + 1) name) := by
  induction budget generalizing name with
  | zero =>
    intro size found
    cases found
  | succ budget ih =>
    rw [sizeOfName, sizeOfName]
    cases Record.get? registry name with
    | none => exact fun size found => found
    | some layout =>
      rw [sizeWithin_eq, sizeWithin_eq]
      exact extends_sizeWith ih layout

def endingNames (registry : Registry) (budget : Nat) : Finset String :=
  (Record.keys registry).toFinset.filter fun name => (sizeOfName registry budget name).isSome

theorem endingNames_subset (budget : Nat) :
    endingNames registry budget ⊆ endingNames registry (budget + 1) := by
  intro name member
  obtain ⟨known, ends⟩ := Finset.mem_filter.1 member
  obtain ⟨size, found⟩ := Option.isSome_iff_exists.1 ends
  have later := extends_sizeOfName budget name size found
  exact Finset.mem_filter.2 ⟨known, Option.isSome_iff_exists.2 ⟨size, later⟩⟩

theorem card_endingNames_le (budget : Nat) :
    (endingNames registry budget).card ≤ registry.length := by
  have within : (endingNames registry budget).card ≤ (Record.keys registry).toFinset.card :=
    Finset.card_le_card (Finset.filter_subset _ _)
  have counted := List.toFinset_card_le (Record.keys registry)
  rw [Record.keys, List.length_map] at counted
  exact Nat.le_trans within counted

/-- Sets that grow within a bound stand still at a step before it. -/
theorem exists_stable {α : Type} (sets : Nat → Finset α) {bound : Nat}
    (grow : ∀ step, sets step ⊆ sets (step + 1)) (few : ∀ step, (sets step).card ≤ bound) :
    ∃ step ≤ bound, sets step = sets (step + 1) := by
  by_contra moving
  have larger : ∀ step ≤ bound + 1, step ≤ (sets step).card := by
    intro step early
    induction step with
    | zero => exact Nat.zero_le _
    | succ step ih =>
      have strict : sets step ≠ sets (step + 1) :=
        fun same => moving ⟨step, by omega, same⟩
      have more := Finset.card_lt_card ((grow step).ssubset_of_ne strict)
      have before := ih (by omega)
      omega
  have last := larger (bound + 1) (Nat.le_refl _)
  have small := few (bound + 1)
  omega

/-- Where no name comes to its end for the first time, a larger budget finds nothing new. -/
theorem sizeOfName_stable {budget : Nat}
    (still : endingNames registry (budget + 1) = endingNames registry (budget + 2)) :
    sizeOfName registry (budget + 1) = sizeOfName registry (budget + 2) := by
  funext name
  cases before : sizeOfName registry (budget + 1) name with
  | some size => exact (extends_sizeOfName (budget + 1) name size before).symm
  | none =>
    cases after : sizeOfName registry (budget + 2) name with
    | none => rfl
    | some size =>
      have known : name ∈ Record.keys registry := by
        by_contra unknown
        rw [sizeOfName, (Record.get?_eq_none registry name).2 unknown] at before
        cases before
      have ends : name ∈ endingNames registry (budget + 2) :=
        Finset.mem_filter.2 ⟨List.mem_toFinset.2 known, by rw [after]; rfl⟩
      rw [← still] at ends
      have found := (Finset.mem_filter.1 ends).2
      rw [before] at found
      cases found

theorem sizeOfName_eq_of_stable {budget : Nat}
    (same : sizeOfName registry budget = sizeOfName registry (budget + 1)) (more : Nat) :
    sizeOfName registry (budget + more) = sizeOfName registry budget := by
  induction more with
  | zero => rfl
  | succ more ih =>
    funext name
    rw [← Nat.add_assoc, congrFun same name, sizeOfName, sizeOfName]
    cases Record.get? registry name with
    | none => rfl
    | some layout => simp only [sizeWithin_eq, ih]

/-- A search that ends at all ends with as many names as the registry has, and one that it lacks. -/
theorem sizeWithin_of_ends {budget : Nat} {layout : Layout} {size : Option Nat}
    (ends : sizeWithin registry budget layout = some size) :
    sizeWithin registry (registry.length + 1) layout = some size := by
  obtain ⟨step, early, still⟩ :=
    exists_stable (fun step => endingNames registry (step + 1))
      (fun step => endingNames_subset (step + 1)) (fun step => card_endingNames_le (step + 1))
  have settled := sizeOfName_eq_of_stable (sizeOfName_stable still)
  have larger (more : Nat) : sizeWithin registry (budget + more) layout = some size := by
    induction more with
    | zero => exact ends
    | succ more ih =>
      rw [sizeWithin_eq] at ih ⊢
      exact extends_sizeWith (extends_sizeOfName (budget + more)) layout size ih
  -- Both the given budget and one above all others find what is found at the step that stands still.
  have above : budget + (step + 1) = step + 1 + budget := Nat.add_comm _ _
  have given : registry.length + 1 = step + 1 + (registry.length - step) := by omega
  calc
    sizeWithin registry (registry.length + 1) layout
      = sizeWith (sizeOfName registry (step + 1)) layout := by rw [sizeWithin_eq, given, settled]
    _ = sizeWithin registry (budget + (step + 1)) layout := by rw [sizeWithin_eq, above, settled]
    _ = some size := larger (step + 1)

theorem fixedSize_of_ends {budget : Nat} {layout : Layout} {size : Option Nat}
    (ends : sizeWithin registry budget layout = some size) :
    layout.fixedSize registry = size :=
  congrArg Option.join (sizeWithin_of_ends ends)

theorem fixedSize_eq_some {layout : Layout} {size : Nat} :
    layout.fixedSize registry = some size ↔
      sizeWithin registry (registry.length + 1) layout = some (some size) :=
  Option.join_eq_some_iff

end Layout

/-! ## What is read -/

namespace Codec

theorem hasSize_parseFlag (invalid : UInt8 → CodecError) :
    (parseFlag invalid).HasSize (1 + 0) := by
  apply Read.hasSize_byte.bind
  intro byte
  split
  next => exact Read.hasSize_pure false
  next => exact Read.hasSize_pure true
  next => exact Read.hasSize_fail _ 0

theorem hasSize_parsePrimitive {p : Primitive} {size : Nat} (sized : p.size? = some size) :
    (parsePrimitive p).HasSize size := by
  cases p with
  | bool =>
    cases sized
    exact (hasSize_parseFlag _).map Tree.bool
  | unsigned width =>
    cases sized
    exact (Read.hasSize_take width.bytes).map _
  | signed width =>
    cases sized
    exact (Read.hasSize_take width.bytes).map _
  | single =>
    cases sized
    exact (Read.hasSize_take 4).map _
  | double =>
    cases sized
    exact (Read.hasSize_take 8).map _
  | string => cases sized
  | bytes => cases sized
  | publicKey =>
    cases sized
    exact (Read.hasSize_take 32).map Tree.bytes

/-- The payloads of an enum of a fixed size have one size in common. -/
theorem uniformWith_eq_some {named : String → Layout.Search} {each size : Nat}
    {variants : List (String × Layout)}
    (found : Layout.uniformWith named each variants = some (some size)) :
    size = 1 + each ∧
      ∀ entry ∈ variants, Layout.sizeWith named entry.2 = some (some each) := by
  induction variants with
  | nil =>
    cases found
    exact ⟨rfl, by simp⟩
  | cons entry rest ih =>
    unfold Layout.uniformWith at found
    split at found
    next => cases found
    next other first =>
      split at found
      next same =>
        obtain ⟨total, others⟩ := ih found
        exact ⟨total, List.forall_mem_cons.2 ⟨same ▸ first, others⟩⟩
      next => cases found

theorem choiceWith_eq_some {named : String → Layout.Search} {size : Nat}
    {variants : List (String × Layout)}
    (found : Layout.choiceWith named variants = some (some size)) :
    ∃ each, size = 1 + each ∧
      ∀ entry ∈ variants, Layout.sizeWith named entry.2 = some (some each) := by
  cases variants with
  | nil => cases found
  | cons entry rest =>
    unfold Layout.choiceWith at found
    split at found
    next => cases found
    next => cases found
    next each first =>
      obtain ⟨total, others⟩ := uniformWith_eq_some found
      exact ⟨each, total, List.forall_mem_cons.2 ⟨first, others⟩⟩

section

variable {named : String → Read Tree} {sizes : String → Layout.Search}

/- Follows the recursion of reading. The search for a size stops short of the parts that decide
nothing, and so only what it found is given. -/
mutual

theorem hasSize_parseWith
    (hop : ∀ name size, sizes name = some (some size) → (named name).HasSize size) :
    (layout : Layout) → (size : Nat) → Layout.sizeWith sizes layout = some (some size) →
      (parseWith named layout).HasSize size
  | .primitive p, size, found => hasSize_parsePrimitive (Option.some.inj found)
  | .vec _, _, found => by cases found
  | .option _, _, found => by cases found
  | .hashMap _ _, _, found => by cases found
  | .array item length, size, found => by
    obtain ⟨each, inner, same⟩ := Option.map_eq_some_iff.1 found
    obtain ⟨each, rfl, rfl⟩ := Option.map_eq_some_iff.1 same
    exact ((hasSize_parseWith hop item each inner).repeated length).map Tree.list
  | .struct fields, size, found => (hasSize_parseFields hop fields size found).map Tree.record
  | .enum variants, size, found => by
    obtain ⟨each, rfl, sized⟩ := choiceWith_eq_some found
    apply Read.hasSize_byte.bind
    intro tag
    split
    next payload chosen => exact hasSize_parseVariant hop variants each sized tag.toNat chosen
    next => exact Read.hasSize_fail _ each
  | .defined name, size, found => hop name size found
termination_by structural layout => layout

theorem hasSize_parseFields
    (hop : ∀ name size, sizes name = some (some size) → (named name).HasSize size) :
    (fields : List (String × Layout)) → (size : Nat) →
      Layout.sumWith sizes fields = some (some size) → (parseFields named fields).HasSize size
  | [], _, found => by
    cases found
    exact Read.hasSize_pure []
  | (key, layout) :: rest, size, found => by
    unfold Layout.sumWith at found
    split at found
    next => cases found
    next => cases found
    next each first =>
      obtain ⟨total, below, same⟩ := Option.map_eq_some_iff.1 found
      obtain ⟨others, rfl, rfl⟩ := Option.map_eq_some_iff.1 same
      exact (hasSize_parseWith hop layout each first).bind fun tree =>
        (hasSize_parseFields hop rest others below).map fun entries => (key, tree) :: entries
termination_by structural fields => fields

theorem hasSize_parseVariant
    (hop : ∀ name size, sizes name = some (some size) → (named name).HasSize size) :
    (variants : List (String × Layout)) → (each : Nat) →
      (∀ entry ∈ variants, Layout.sizeWith sizes entry.2 = some (some each)) →
      (index : Nat) → {payload : Read Tree} → parseVariant named variants index = some payload →
      payload.HasSize each
  | [], _, _, _, _, chosen => by cases chosen
  | (key, layout) :: _, each, sized, 0, _, chosen => by
    rw [← Option.some.inj chosen]
    exact (hasSize_parseWith hop layout each (sized _ List.mem_cons_self)).map (Tree.variant key)
  | _ :: rest, each, sized, index + 1, _, chosen =>
    hasSize_parseVariant hop rest each (List.forall_mem_cons.1 sized).2 index chosen
termination_by structural variants => variants

end

end

/-- The budgets of reading and of the search have nothing to do with each other. -/
theorem hasSize_parseWithin {registry : Registry} {budget names : Nat} {layout : Layout}
    {size : Nat} (found : Layout.sizeWithin registry names layout = some (some size)) :
    (parseWithin registry budget layout).HasSize size := by
  induction budget generalizing names layout size with
  | zero =>
    rw [Layout.sizeWithin_eq] at found
    exact hasSize_parseWith (fun _ size _ => Read.hasSize_fail _ size) layout size found
  | succ budget ih =>
    rw [Layout.sizeWithin_eq] at found
    refine hasSize_parseWith (fun name size known => ?_) layout size found
    cases names with
    | zero => cases known
    | succ names =>
      rw [Layout.sizeOfName] at known
      cases target : Record.get? registry name with
      | none => exact Read.hasSize_fail _ size
      | some layout =>
        rw [target] at known
        exact ih known

/-! ## What is written -/

theorem encodeVariant_eq_some {write : String → Tree → Emission}
    {variants : List (String × Layout)} {position : Nat} {kind : String} {payload : Tree}
    {emission : Emission} (chosen : encodeVariant write variants position kind payload =
      some emission) :
    ∃ index layout, Record.get? variants kind = some layout ∧
      emission = (encodeTag index).andThen (encodeWith write layout payload) := by
  induction variants generalizing position with
  | nil => cases chosen
  | cons entry rest ih =>
    obtain ⟨key, layout⟩ := entry
    rw [encodeVariant] at chosen
    rw [Record.get?_cons]
    split at chosen
    next same => exact ⟨position, layout, if_pos same, (Option.some.inj chosen).symm⟩
    next other =>
      obtain ⟨index, target, found, written⟩ := ih chosen
      exact ⟨index, target, (if_neg other).trans found, written⟩

theorem length_encodeTag {position : Nat} {bytes : List UInt8}
    (encoded : encodeTag position = .ofBytes bytes) : bytes.length = 1 := by
  unfold encodeTag at encoded
  split at encoded
  next =>
    rw [← Emission.ofBytes_inj.1 encoded]
    rfl
  next => exact absurd encoded (Emission.fail_ne_ofBytes _ _)

end Codec

namespace Layout

variable {registry : Registry} {layout : Layout} {size : Nat}

theorem hasSize_parseFrom (sized : layout.fixedSize registry = some size) :
    (layout.parseFrom registry).HasSize size :=
  Codec.hasSize_parseWithin (fixedSize_eq_some.1 sized)

/-- What is written is read back to its end. -/
theorem length_of_encode (sized : layout.fixedSize registry = some size) {tree : Tree}
    {bytes : List UInt8} (encoded : layout.encode registry tree = .ok bytes) :
    bytes.length = size := by
  have read := takes_of_emit (encode_eq_ok.1 encoded) 0 []
  obtain ⟨taken, split, moved, measured⟩ := hasSize_parseFrom sized _ _ _ read
  rw [← measured]
  simpa using moved

/-- Layouts are written in one way, up to what becomes of the names in them. -/
theorem exists_emit_eq (registry : Registry) :
    ∃ write, ∀ layout tree, Layout.emit layout registry tree = Codec.encodeWith write layout tree :=
  ⟨_, fun _ _ => rfl⟩

/-- A variant is written as its tag and its payload. -/
theorem length_of_encode_variant {variants : List (String × Layout)} {kind : String}
    (found : Record.get? variants kind = some layout)
    (sized : layout.fixedSize registry = some size) {payload : Tree} {bytes : List UInt8}
    (encoded : (Layout.enum variants).encode registry (.variant kind payload) = .ok bytes) :
    bytes.length = 1 + size := by
  obtain ⟨write, emits⟩ := exists_emit_eq registry
  rw [encode_eq_ok, emits, Tree.variant, Codec.encodeWith] at encoded
  split at encoded
  next emission chosen =>
    obtain ⟨index, other, named, rfl⟩ := Codec.encodeVariant_eq_some chosen
    obtain rfl : layout = other := Option.some.inj (found.symm.trans named)
    obtain ⟨head, tail, tagged, written, rfl⟩ := Emission.andThen_eq_ofBytes.1 encoded
    rw [← emits] at written
    rw [List.length_append, Codec.length_encodeTag tagged,
      length_of_encode sized (encode_eq_ok.2 written)]
  next => exact absurd encoded (Emission.fail_ne_ofBytes _ _)

/-- Wherever the search for a size ends, `fixedSize` has its result. If it is a number, that is
the length of every encoding and of what every parse takes; and if it is one for the payload of a
variant, the variant takes one byte more, be the size of the enum fixed or not. -/
theorem fixedSize_exact (registry : Registry) (layout : Layout) :
    (∀ budget size, sizeWithin registry budget layout = some size →
      layout.fixedSize registry = size) ∧
    (∀ size, layout.fixedSize registry = some size →
      (∀ tree bytes, layout.encode registry tree = .ok bytes → bytes.length = size) ∧
      ∀ reader tree after, layout.parseFrom registry reader = (.ok tree, after) →
        after.position = reader.position + size ∧ after.rest = reader.rest.drop size) ∧
    ∀ variants kind payloadLayout size, layout = .enum variants →
      Record.get? variants kind = some payloadLayout →
      payloadLayout.fixedSize registry = some size →
      ∀ payload bytes, layout.encode registry (.variant kind payload) = .ok bytes →
        bytes.length = 1 + size := by
  refine ⟨fun _ _ => fixedSize_of_ends, fun size sized => ⟨?_, ?_⟩, ?_⟩
  · intro tree bytes encoded
    exact length_of_encode sized encoded
  · intro reader tree after parsed
    obtain ⟨taken, split, moved, rfl⟩ := hasSize_parseFrom sized reader tree after parsed
    rw [split, List.drop_left]
    exact ⟨moved, rfl⟩
  · rintro variants kind payloadLayout size rfl found sized payload bytes encoded
    exact length_of_encode_variant found sized encoded

def figures : Registry :=
  [("Point", .struct [("x", .primitive (.unsigned .w16)), ("y", .primitive (.unsigned .w16))]),
   ("Side", .enum [("At", .defined "Point"), ("Long", .primitive (.unsigned .w32))]),
   ("Figure", .enum [("Dot", .defined "Point"), ("Pair", .array (.defined "Side") 2)])]

def pairOfSides : Tree :=
  .list [.variant "Long" (.unsigned 7),
    .variant "At" (.record [("x", .unsigned 2), ("y", .unsigned 258)])]

theorem fixedSize_exact_figures :
    (Layout.array (.defined "Side") 2).fixedSize figures = some 10 ∧
    (∃ after, parseFrom (.array (.defined "Side") 2) figures
        ⟨3, [1, 7, 0, 0, 0, 0, 2, 0, 2, 1, 9]⟩ = (.ok pairOfSides, after) ∧
      after.position = 3 + 10) ∧
    (Layout.defined "Figure").fixedSize figures = none ∧
    ∃ bytes, encode (.enum [("Dot", .defined "Point"), ("Pair", .array (.defined "Side") 2)])
      figures (.variant "Pair" pairOfSides) = .ok bytes ∧ bytes.length = 1 + 10 := by
  have sized : (Layout.array (.defined "Side") 2).fixedSize figures = some 10 :=
    (fixedSize_exact figures _).1 2 (some 10) rfl
  have parsed : parseFrom (.array (.defined "Side") 2) figures
      ⟨3, [1, 7, 0, 0, 0, 0, 2, 0, 2, 1, 9]⟩ = (.ok pairOfSides, ⟨13, [9]⟩) := rfl
  have encoded : encode (.enum [("Dot", .defined "Point"), ("Pair", .array (.defined "Side") 2)])
      figures (.variant "Pair" pairOfSides) = .ok [1, 1, 7, 0, 0, 0, 0, 2, 0, 2, 1] := rfl
  have reads := ((fixedSize_exact figures _).2.1 10 sized).2 _ _ _ parsed
  have writes := (fixedSize_exact figures _).2.2 _ _ _ 10 rfl rfl sized _ _ encoded
  exact ⟨sized, ⟨_, parsed, reads.1⟩, rfl, _, encoded, writes⟩

end Layout

end WireSchema
