import WireSchema.Proofs.Convert.OfJson
import WireSchema.Proofs.Json.Draft

/-! Brackets of JSON forms. A value that was read has a form with no more brackets inside one
another than what it was read from, as members that are passed over only take brackets away and
members that are filled in bring none. -/

namespace WireSchema

open Outcome

namespace Value

mutual

/-- How many brackets are open at once in the JSON form of a value, at most. -/
def depth : Value → Nat
  | bytes _ => 1
  | list items => itemsDepth items + 1
  | option (some value) => depth value
  | map entries => entriesDepth entries + 1
  | struct _ fields => fieldsDepth fields + 1
  | enum _ _ _ .empty => 1
  | enum _ _ _ (.named fields) => fieldsDepth fields + 2
  | enum _ _ _ (.tuple items) => itemsDepth items + 2
  | _ => 0
termination_by structural value => value

def itemsDepth : List Value → Nat
  | [] => 0
  | value :: rest => max (depth value) (itemsDepth rest)
termination_by structural items => items

def entriesDepth : List (Value × Value) → Nat
  | [] => 0
  | (key, value) :: rest => max (max (depth key) (depth value) + 1) (entriesDepth rest)
termination_by structural entries => entries

def fieldsDepth : List (String × Value) → Nat
  | [] => 0
  | (_, value) :: rest => max (depth value) (fieldsDepth rest)
termination_by structural fields => fields

end

theorem itemsDepth_le {items : List Value} {limit : Nat} :
    itemsDepth items ≤ limit ↔ ∀ value ∈ items, value.depth ≤ limit := by
  induction items with
  | nil => simp [itemsDepth]
  | cons value rest ih => rw [itemsDepth, Nat.max_le, ih, List.forall_mem_cons]

theorem fieldsDepth_le {fields : Record Value} {limit : Nat} :
    fieldsDepth fields ≤ limit ↔ ∀ entry ∈ fields, entry.2.depth ≤ limit := by
  induction fields with
  | nil => simp [fieldsDepth]
  | cons field rest ih => rw [fieldsDepth, Nat.max_le, ih, List.forall_mem_cons]

theorem fieldsDepth_keyedFrom (position : Nat) (items : List Value) :
    fieldsDepth (keyedFrom position items) = itemsDepth items := by
  induction items generalizing position with
  | nil => rfl
  | cons item rest ih => exact congrArg (max item.depth) (ih (position + 1))

theorem depth_wrapped (count : Nat) (value : Value) :
    (wrapped count value).depth = value.depth := by
  induction count with
  | zero => rfl
  | succ count ih => rw [wrapped, depth, ih]

variable {table : Table}

theorem depth_le_of_wrapped {count limit : Nat} {result : Convert Value} {value : Value}
    (sound : ∀ inner, result = .ok inner → inner.depth ≤ limit)
    (made : wrapped count <$> result = .ok value) : value.depth ≤ limit := by
  obtain ⟨inner, found, rfl⟩ := map_eq_ok.1 made
  rw [depth_wrapped]
  exact sound inner found

/-- Nothing but an array is read as something with brackets. -/
theorem depth_le_of_valueOfJson {p : Primitive} {json : Json} {path : String} {value : Value}
    (made : p.valueOfJson json path = .ok value) : value.depth ≤ json.depth := by
  cases p with
  | bytes =>
    obtain ⟨items, accessed, rest⟩ := bind_eq_ok.1 made
    obtain ⟨b, -, done⟩ := bind_eq_ok.1 rest
    rw [← pure_eq_ok.1 done]
    cases json with
    | array items => exact Nat.succ_le_succ (Nat.zero_le _)
    | _ => cases accessed
  | publicKey =>
    obtain ⟨text, -, rest⟩ := bind_eq_ok.1 made
    obtain ⟨key, -, done⟩ := bind_eq_ok.1 rest
    rw [← pure_eq_ok.1 done]
    exact Nat.zero_le _
  | _ =>
    obtain ⟨content, -, rfl⟩ := map_eq_ok.1 made
    exact Nat.zero_le _

theorem depth_le_of_ofJsonLeaf {json : Json} {type : FieldType} {path : String} {value : Value}
    (made : ofJsonLeaf table json type path = .ok value) : value.depth ≤ json.depth := by
  cases type with
  | primitive p => exact depth_le_of_valueOfJson made
  | defined name =>
    obtain ⟨body, -, rest⟩ := bind_eq_ok.1 made
    cases body <;> cases rest
  | _ => cases made

def IsShallow (table : Table) (limit : Nat) (json : Json) : Prop :=
  ∀ type path value, ofJson table json type path = .ok value → value.depth ≤ limit

def payloadDepth : Payload Value → Nat
  | .empty => 0
  | .named fields => fieldsDepth fields + 1
  | .tuple items => itemsDepth items + 1

theorem depth_enum (name kind : String) (tag : UInt8) (payload : Payload Value) :
    (enum name kind tag payload).depth = payloadDepth payload + 1 := by
  cases payload <;> rfl

theorem depth_le_of_membersOr {members : Record Json} {path : String} {declared : List Field}
    {entries : Record Value} {limit : Nat}
    (shallow : ∀ entry ∈ members, IsShallow table limit entry.2)
    (made : Convert.membersOr (.option none) (ofJsonMembers table members) path declared =
      .ok entries) : fieldsDepth entries ≤ limit := by
  have gives := Convert.givesOr_of_membersOr made
  clear made
  rw [fieldsDepth_le]
  induction gives with
  | nil => simp
  | cons first _ ih =>
    refine List.forall_mem_cons.2 ⟨?_, ih⟩
    obtain ⟨-, ⟨convert, found, converted⟩ | ⟨-, absent⟩⟩ := first
    · rw [get?_ofJsonMembers, Option.map_eq_some_iff] at found
      obtain ⟨json, here, rfl⟩ := found
      exact shallow _ (Record.mem_of_get? here) _ _ _ converted
    · rw [absent]
      exact Nat.zero_le _

theorem depth_le_of_elements {items : List Json} {path : String} {position limit : Nat}
    {types : List FieldType} {values : List Value}
    (shallow : ∀ json ∈ items, IsShallow table limit json)
    (made : Convert.elements path position types (ofJsonElements table items) = .ok values) :
    itemsDepth values ≤ limit := by
  induction types generalizing position items values with
  | nil =>
    cases made
    exact Nat.zero_le _
  | cons type rest ih =>
    cases items with
    | nil =>
      cases made
      exact Nat.zero_le _
    | cons item others =>
      obtain ⟨value, first, tail⟩ := bind_eq_ok.1 made
      obtain ⟨remaining, restMade, done⟩ := bind_eq_ok.1 tail
      rw [← pure_eq_ok.1 done]
      obtain ⟨here, below⟩ := List.forall_mem_cons.1 shallow
      exact Nat.max_le.2 ⟨here _ _ _ first, ih below restMade⟩

def IsShallowBody (table : Table) (limit : Nat) (json : Json) : Prop :=
  ∀ shape path payload, ofJsonBody table json shape path = .ok payload →
    payloadDepth payload ≤ limit

theorem IsShallow.mono {limit limit' : Nat} {json : Json} (shallow : IsShallow table limit json)
    (less : limit ≤ limit') : IsShallow table limit' json :=
  fun type path value made => Nat.le_trans (shallow type path value made) less

theorem IsShallowBody.mono {limit limit' : Nat} {json : Json}
    (shallow : IsShallowBody table limit json) (less : limit ≤ limit') :
    IsShallowBody table limit' json :=
  fun shape path payload made => Nat.le_trans (shallow shape path payload made) less

theorem depth_le_of_payloadWithout {found path : String} {shape : Shape} {payload : Payload Value}
    {limit : Nat} (made : payloadWithout found shape path = .ok payload) :
    payloadDepth payload ≤ limit := by
  cases shape with
  | empty =>
    cases made
    exact Nat.zero_le _
  | named declared => cases made
  | tuple types => cases made

theorem depth_le_of_enumOfBody {name kind path : String} {variants : List Variant}
    {members : Record Json} {limit : Nat} {value : Value}
    (shallow : ∀ entry ∈ members, IsShallowBody table limit entry.2)
    (made : enumOfBody name variants kind (Record.get? (ofJsonBodies table members) "value") path =
      .ok value) : value.depth ≤ limit + 1 := by
  obtain ⟨⟨position, variant⟩, -, rest⟩ := bind_eq_ok.1 made
  obtain ⟨payload, carried, done⟩ := bind_eq_ok.1 rest
  rw [← pure_eq_ok.1 done, depth_enum]
  refine Nat.succ_le_succ ?_
  rw [get?_ofJsonBodies] at carried
  cases found : Record.get? members "value" with
  | none =>
    rw [found] at carried
    exact depth_le_of_payloadWithout carried
  | some json =>
    rw [found] at carried
    exact shallow _ (Record.mem_of_get? found) _ _ _ carried

/- Follows the recursion of the conversion. -/
mutual

theorem depth_le_of_ofJson : (json : Json) → IsShallow table json.depth json
  | .null, type, path, value, made => by
    cases type with
    | option item =>
      cases made
      exact Nat.le_refl _
    | _ =>
      simp only [ofJson] at made
      exact depth_le_of_ofJsonLeaf made
  | .array items, type, path, value, made => by
    refine depth_le_of_wrapped (fun inner found => ?_) made
    generalize type.core = core at found
    cases core with
    | vec item =>
      obtain ⟨values, itemsMade, rfl⟩ := map_eq_ok.1 found
      exact Nat.succ_le_succ (depth_le_of_ofJsonItems items itemsMade)
    | array item length =>
      simp only at found
      split at found
      next =>
        obtain ⟨values, itemsMade, rfl⟩ := map_eq_ok.1 found
        exact Nat.succ_le_succ (depth_le_of_ofJsonItems items itemsMade)
      next => cases found
    | hashMap key item =>
      obtain ⟨entries, pairsMade, rfl⟩ := map_eq_ok.1 found
      exact Nat.succ_le_succ (depth_le_of_ofJsonPairs items pairsMade)
    | _ => exact depth_le_of_ofJsonLeaf found
  | .object members, type, path, value, made => by
    refine depth_le_of_wrapped (fun inner found => ?_) made
    generalize type.core = core at found
    cases core with
    | defined name =>
      obtain ⟨body, -, rest⟩ := bind_eq_ok.1 found
      cases body with
      | struct declared =>
        obtain ⟨entries, membersMade, done⟩ := bind_eq_ok.1 rest
        rw [← pure_eq_ok.1 done]
        exact Nat.succ_le_succ (depth_le_of_membersOr
          (fun entry member => (shallow_of_mem_members members entry member).1) membersMade)
      | enum variants =>
        obtain ⟨kind, -, enumMade⟩ := bind_eq_ok.1 rest
        exact depth_le_of_enumOfBody
          (fun entry member => (shallow_of_mem_members members entry member).2) enumMade
    | _ => exact depth_le_of_ofJsonLeaf found
  | .bool _, _, _, _, made => depth_le_of_wrapped (fun _ => depth_le_of_ofJsonLeaf) made
  | .number _, _, _, _, made => depth_le_of_wrapped (fun _ => depth_le_of_ofJsonLeaf) made
  | .string _, _, _, _, made => depth_le_of_wrapped (fun _ => depth_le_of_ofJsonLeaf) made
termination_by structural json => json

theorem depth_le_of_ofJsonItems : (items : List Json) →
    ∀ {type path position values}, ofJsonItems table items type path position = .ok values →
      itemsDepth values ≤ Json.itemsDepth items
  | [], _, _, _, _, made => by
    cases made
    exact Nat.le_refl _
  | json :: rest, _, _, _, _, made => by
    obtain ⟨value, first, tail⟩ := bind_eq_ok.1 made
    obtain ⟨others, restMade, done⟩ := bind_eq_ok.1 tail
    rw [← pure_eq_ok.1 done]
    exact max_le_max (depth_le_of_ofJson json _ _ _ first) (depth_le_of_ofJsonItems rest restMade)
termination_by structural items => items

theorem depth_le_of_ofJsonPairs : (items : List Json) →
    ∀ {key item path position entries},
      ofJsonPairs table items key item path position = .ok entries →
      entriesDepth entries ≤ Json.itemsDepth items
  | [], _, _, _, _, _, made => by
    cases made
    exact Nat.le_refl _
  | json :: rest, _, _, _, _, _, made => by
    obtain ⟨entry, first, tail⟩ := bind_eq_ok.1 made
    obtain ⟨others, restMade, done⟩ := bind_eq_ok.1 tail
    rw [← pure_eq_ok.1 done]
    exact max_le_max (depth_le_of_ofJsonPair json first) (depth_le_of_ofJsonPairs rest restMade)
termination_by structural items => items

theorem depth_le_of_ofJsonPair : (json : Json) →
    ∀ {key item path entry}, ofJsonPair table json key item path = .ok entry →
      max entry.1.depth entry.2.depth + 1 ≤ json.depth
  | .array [keyJson, itemJson], _, _, _, _, made => by
    obtain ⟨key, keyMade, rest⟩ := bind_eq_ok.1 made
    obtain ⟨item, itemMade, done⟩ := bind_eq_ok.1 rest
    rw [← pure_eq_ok.1 done]
    have below := max_le_max (depth_le_of_ofJson keyJson _ _ _ keyMade)
      (depth_le_of_ofJson itemJson _ _ _ itemMade)
    simp only [Json.depth, Json.itemsDepth, Nat.max_zero]
    exact Nat.succ_le_succ below
  | .array [], _, _, _, _, made => by cases made
  | .array [_], _, _, _, _, made => by cases made
  | .array (_ :: _ :: _ :: _), _, _, _, _, made => by cases made
  | .null, _, _, _, _, made => by cases made
  | .bool _, _, _, _, _, made => by cases made
  | .number _, _, _, _, _, made => by cases made
  | .string _, _, _, _, _, made => by cases made
  | .object _, _, _, _, _, made => by cases made
termination_by structural json => json

theorem shallow_of_mem_members : (members : List (String × Json)) → ∀ entry ∈ members,
    IsShallow table (Json.membersDepth members) entry.2 ∧
      IsShallowBody table (Json.membersDepth members) entry.2
  | [] => by simp
  | (_, json) :: rest => by
    refine List.forall_mem_cons.2 ⟨⟨?_, ?_⟩, fun entry member => ?_⟩
    · exact (depth_le_of_ofJson json).mono (Nat.le_max_left _ _)
    · exact (depth_le_of_ofJsonBody json).mono (Nat.le_max_left _ _)
    · obtain ⟨value, body⟩ := shallow_of_mem_members rest entry member
      exact ⟨value.mono (Nat.le_max_right _ _), body.mono (Nat.le_max_right _ _)⟩
termination_by structural members => members

theorem shallow_of_mem_elements : (items : List Json) → ∀ json ∈ items,
    IsShallow table (Json.itemsDepth items) json
  | [] => by simp
  | json :: rest => by
    refine List.forall_mem_cons.2 ⟨?_, fun other member => ?_⟩
    · exact (depth_le_of_ofJson json).mono (Nat.le_max_left _ _)
    · exact (shallow_of_mem_elements rest other member).mono (Nat.le_max_right _ _)
termination_by structural items => items

theorem depth_le_of_ofJsonBody : (json : Json) → IsShallowBody table json.depth json
  | .object members, shape, path, payload, made => by
    cases shape with
    | named declared =>
      obtain ⟨entries, membersMade, rfl⟩ := map_eq_ok.1 made
      exact Nat.succ_le_succ (depth_le_of_membersOr
        (fun entry member => (shallow_of_mem_members members entry member).1) membersMade)
    | _ =>
      simp only [ofJsonBody] at made
      exact depth_le_of_payloadWithout made
  | .array items, shape, path, payload, made => by
    cases shape with
    | tuple types =>
      obtain ⟨-, rest⟩ := then_eq_ok.1 made
      obtain ⟨values, elementsMade, done⟩ := bind_eq_ok.1 rest
      rw [← pure_eq_ok.1 done]
      exact Nat.succ_le_succ (depth_le_of_elements (shallow_of_mem_elements items) elementsMade)
    | _ =>
      simp only [ofJsonBody] at made
      exact depth_le_of_payloadWithout made
  | .null, _, _, _, made => depth_le_of_payloadWithout made
  | .bool _, _, _, _, made => depth_le_of_payloadWithout made
  | .number _, _, _, _, made => depth_le_of_payloadWithout made
  | .string _, _, _, _, made => depth_le_of_payloadWithout made
termination_by structural json => json

end

end Value

end WireSchema
