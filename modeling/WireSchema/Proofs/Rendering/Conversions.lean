import WireSchema.Proofs.Rendering.Boxes
import WireSchema.Proofs.Rendering.InlineTypes

/-! Types and converters agree on how a field type is classified: which types are used in JSON as
they are, which have one plain form only, and which options are boxed. -/

namespace WireSchema

open Occurrences

namespace FieldType

inductive IsPartOf (part : FieldType) : FieldType → Prop where
  | whole : IsPartOf part part
  | vec : IsPartOf part item → IsPartOf part (.vec item)
  | option : IsPartOf part item → IsPartOf part (.option item)
  | array : IsPartOf part item → IsPartOf part (.array item length)
  | key : IsPartOf part key → IsPartOf part (.hashMap key value)
  | value : IsPartOf part value → IsPartOf part (.hashMap key value)

/-- Whether values have another type in JSON, whatever they contain: integers that may not fit a
number, public keys, fixed arrays, and references to definitions. -/
def isRecast : FieldType → Bool
  | primitive p => p.isWideInteger || p = .publicKey
  | array _ _ | defined _ => true
  | vec _ | option _ | hashMap _ _ => false

theorem isRecast_primitive (p : Primitive) :
    (primitive p).isRecast = !(primitive p).isJsonIdentity := by
  rcases p with _ | w | w | _ | _ | _ | _ | _
  case unsigned => cases w <;> rfl
  case signed => cases w <;> rfl
  all_goals rfl

/-- A type is its own JSON form if and only if no part of it is recast. -/
theorem isJsonIdentity_iff {type : FieldType} :
    type.isJsonIdentity = true ↔ ∀ part, IsPartOf part type → part.isRecast = false := by
  constructor
  · intro same part inside
    induction inside with
    | whole =>
      cases part with
      | primitive p => rw [isRecast_primitive, same, Bool.not_true]
      | array item length => cases same
      | defined name => cases same
      | _ => rfl
    | vec _ ih => exact ih same
    | option _ ih => exact ih same
    | array _ _ => cases same
    | key _ ih => exact ih (Bool.and_eq_true_iff.1 same).1
    | value _ ih => exact ih (Bool.and_eq_true_iff.1 same).2
  · intro none
    induction type with
    | primitive p =>
      have here := none (primitive p) .whole
      rwa [isRecast_primitive, Bool.not_eq_false'] at here
    | vec item ih => exact ih fun part inside => none part (.vec inside)
    | option item ih => exact ih fun part inside => none part (.option inside)
    | array item length ih => cases none (array item length) .whole
    | hashMap key value keyIh valueIh =>
      have keys := keyIh fun part inside => none part (.key inside)
      have values := valueIh fun part inside => none part (.value inside)
      exact Bool.and_eq_true_iff.2 ⟨keys, values⟩
    | defined name => cases none (defined name) .whole

end FieldType

namespace Scope

variable {scope : Scope} {operand : String}

/-! ## JSON -/

theorem fallible_jsonReader {type : FieldType} :
    (scope.jsonReader type operand).fallible = !type.isJsonIdentity := by
  induction type generalizing operand with
  | primitive p =>
    rcases p with _ | w | w | _ | _ | _ | _ | _
    case unsigned => cases w <;> rfl
    case signed => cases w <;> rfl
    all_goals rfl
  | vec item ih =>
    rw [jsonReader, FieldType.isJsonIdentity]
    split
    next same => rw [same, Bool.not_true]
    next => exact ih
  | array item length ih => rfl
  | option item ih =>
    rw [jsonReader, FieldType.isJsonIdentity]
    split
    next same => rw [same, Bool.not_true]
    next => exact ih
  | hashMap key value keyIh valueIh =>
    rw [jsonReader, FieldType.isJsonIdentity]
    split
    next same => rw [same, Bool.not_true]
    next =>
      rw [collectedPairs, keyIh, valueIh, Bool.not_and]
      split
      next some => exact some.symm
      next none => exact (Bool.not_eq_true _ ▸ none).symm
  | defined name =>
    rw [jsonReader]
    split <;> rfl

theorem jsonType_of_isJsonIdentity {type : FieldType} (same : type.isJsonIdentity = true)
    (form : ValueForm) : scope.jsonType type = scope.valueType form type := by
  induction type with
  | primitive p =>
    rcases p with _ | w | w | _ | _ | _ | _ | _
    case unsigned => cases w <;> first | rfl | cases same
    case signed => cases w <;> first | rfl | cases same
    case publicKey => cases same
    all_goals rfl
  | vec item ih | option item ih =>
    unfold jsonType valueType
    rw [ih same]
  | array item length ih => cases same
  | hashMap key value keyIh valueIh =>
    obtain ⟨keys, values⟩ := Bool.and_eq_true_iff.1 same
    unfold jsonType valueType
    rw [keyIh keys, valueIh values]
  | defined name => cases same

/-- An expression copies its operand or clones it, and does nothing else. -/
def IsCopy (operand code : String) : Prop :=
  code = operandCopy operand ∨ code = operandPlace operand ++ ".clone()"

theorem isCopy_of_isJsonIdentity {type : FieldType} (same : type.isJsonIdentity = true)
    (operand : String) : IsCopy operand (scope.jsonWriter type operand) ∧
      IsCopy operand (scope.jsonReader type operand).code := by
  cases type with
  | primitive p =>
    rcases p with _ | w | w | _ | _ | _ | _ | _
    case unsigned => cases w <;> first | exact ⟨.inl rfl, .inl rfl⟩ | cases same
    case signed => cases w <;> first | exact ⟨.inl rfl, .inl rfl⟩ | cases same
    case publicKey => cases same
    case string => exact ⟨.inr rfl, .inr rfl⟩
    case bytes => exact ⟨.inr rfl, .inr rfl⟩
    all_goals exact ⟨.inl rfl, .inl rfl⟩
  | vec item | option item =>
    rw [FieldType.isJsonIdentity] at same
    rw [jsonWriter, jsonReader, if_pos same, if_pos same]
    exact ⟨.inr rfl, .inr rfl⟩
  | array item length => cases same
  | hashMap key value =>
    rw [FieldType.isJsonIdentity] at same
    rw [jsonWriter, jsonReader, if_pos same, if_pos same]
    exact ⟨.inr rfl, .inr rfl⟩
  | defined name => cases same

/-! ## Initial values -/

theorem initializer_of_not_hasStruct {type : FieldType} (none : scope.hasStruct type = false)
    (operand : String) : scope.initializer type operand = operand := by
  cases type with
  | primitive p => rfl
  | vec item | array item length | option item =>
    rw [hasStruct] at none
    rw [initializer, if_neg (by rw [none]; exact Bool.false_ne_true)]
  | hashMap key value =>
    rw [hasStruct] at none
    rw [initializer, if_neg (by rw [none]; exact Bool.false_ne_true)]
  | defined name =>
    rw [hasStruct, decide_eq_false_iff_not] at none
    rw [initializer]
    split
    next struct => exact absurd struct none
    next => rfl

/-- What is put around an operand only makes it longer. -/
theorem length_lt_initializer {type : FieldType} (some : scope.hasStruct type = true)
    (operand : String) : operand.length < (scope.initializer type operand).length := by
  have bracket : 0 < ")".length := by decide
  have collects : 0 < collectVec.length := by decide
  cases type with
  | primitive p => cases some
  | vec item =>
    rw [hasStruct] at some
    rw [initializer, if_pos some]
    show operand.length < (operand ++ _ ++ _ ++ _ ++ collectVec).length
    simp only [String.length_append]
    omega
  | array item length | option item =>
    rw [hasStruct] at some
    rw [initializer, if_pos some]
    show operand.length < (operand ++ _ ++ _ ++ ")").length
    simp only [String.length_append]
    omega
  | hashMap key value =>
    rw [hasStruct] at some
    rw [initializer, if_pos some]
    show operand.length < (operand ++ _ ++ _ ++ _ ++ _ ++ _ ++ collectVec).length
    simp only [String.length_append]
    omega
  | defined name =>
    rw [hasStruct, decide_eq_true_iff] at some
    rw [initializer, some]
    show operand.length < (_ ++ _ ++ operand ++ ")").length
    simp only [String.length_append]
    omega

theorem length_append_le {first first' second second' : String} {n n' : Nat}
    (longer : first.length + n ≤ first'.length) (longer' : second.length + n' ≤ second'.length) :
    (first ++ second).length + (n + n') ≤ (first' ++ second').length := by
  rw [String.length_append, String.length_append]
  omega

theorem length_append_left (front : String) {text text' : String} {n : Nat}
    (longer : text.length + n ≤ text'.length) :
    (front ++ text).length + n ≤ (front ++ text').length := by
  rw [String.length_append, String.length_append]
  omega

theorem length_append_right (back : String) {text text' : String} {n : Nat}
    (longer : text.length + n ≤ text'.length) :
    (text ++ back).length + n ≤ (text' ++ back).length := by
  rw [String.length_append, String.length_append]
  omega

theorem length_itemPath {name item item' : String} {n : Nat}
    (longer : item.length + n ≤ item'.length) :
    (scope.itemPath name item).length + n ≤ (scope.itemPath name item').length := by
  unfold itemPath
  split
  · exact longer
  · exact length_append_left _ longer

theorem length_optionText {item item' : String} {n : Nat} (boxed : Bool)
    (longer : item.length + n ≤ item'.length) :
    (optionText boxed item).length + n ≤ (optionText boxed item').length := by
  unfold optionText
  split
  · exact length_append_right _ (length_append_left _ longer)
  · exact length_append_right _ (length_append_left _ longer)

theorem length_typeIdent (name : String) :
    (Naming.typeIdent name).length + 1 ≤ (Naming.fieldsItem name).length := by
  rw [Naming.typeIdent]
  split
  · exact length_append_left _ (by decide)
  · rw [Naming.fieldsItem, String.length_append]
    exact Nat.add_le_add_left (by decide) _

/-- The built form of a struct has the shorter name, so that no type with a struct is spelled alike
in both forms. -/
theorem length_valueType (type : FieldType) :
    (scope.valueType .built type).length + (scope.hasStruct type).toNat ≤
      (scope.valueType .fields type).length := by
  induction type with
  | primitive p => exact Nat.le_refl _
  | vec item ih => exact length_append_right _ (length_append_left _ ih)
  | array item length ih =>
    exact length_append_right _ (length_append_right _ (length_append_right _
      (length_append_left _ ih)))
  | option item ih => exact length_optionText _ ih
  | hashMap key value keyIh valueIh =>
    have either : (scope.hasStruct key || scope.hasStruct value).toNat ≤
        (scope.hasStruct key).toNat + (scope.hasStruct value).toNat := by
      cases scope.hasStruct key <;> cases scope.hasStruct value <;> decide
    refine (Nat.add_le_add_left either _).trans ?_
    exact length_append_right _ (length_append_le
      (length_append_right _ (length_append_left _ keyIh)) valueIh)
  | defined name =>
    unfold valueType hasStruct
    cases kind : scope.kindOf name with
    | struct =>
      exact length_itemPath (length_typeIdent name)
    | enum =>
      exact Nat.le_refl _

theorem valueType_of_not_hasStruct {type : FieldType} (none : scope.hasStruct type = false) :
    scope.valueType .fields type = scope.valueType .built type := by
  induction type with
  | primitive p => rfl
  | vec item ih | array item length ih | option item ih =>
    unfold valueType
    rw [ih none]
  | hashMap key value keyIh valueIh =>
    obtain ⟨keys, values⟩ := Bool.or_eq_false_iff.1 none
    unfold valueType
    rw [keyIh keys, valueIh values]
  | defined name =>
    unfold valueType
    cases kind : scope.kindOf name with
    | struct =>
      rw [hasStruct, kind] at none
      cases none
    | enum => rfl

theorem initializer_eq_self_iff {type : FieldType} :
    scope.initializer type operand = operand ↔ scope.hasStruct type = false := by
  refine ⟨fun same => ?_, fun none => initializer_of_not_hasStruct none operand⟩
  by_contra some
  have longer := length_lt_initializer (Bool.not_eq_false _ ▸ some) operand
  rw [same] at longer
  exact Nat.lt_irrefl _ longer

theorem valueType_eq_iff {type : FieldType} :
    scope.valueType .fields type = scope.valueType .built type ↔
      scope.hasStruct type = false := by
  refine ⟨fun same => ?_, valueType_of_not_hasStruct⟩
  have longer : (scope.valueType .built type).length + (scope.hasStruct type).toNat ≤
      (scope.valueType .fields type).length := length_valueType type
  rw [same] at longer
  cases some : scope.hasStruct type with
  | false => rfl
  | true =>
    rw [some] at longer
    exact absurd longer (Nat.not_succ_le_self _)

end Scope

/-! ## Types of a table -/

namespace Table

variable {types : List TypeDef} {table : Table} {type : FieldType}

theorem hasIdentifiers_of_declared (accepted : ofTypes types = .ok table)
    (declared : ∀ name ∈ type.references, name ∈ table.names) : type.HasIdentifiers := by
  obtain ⟨rfl, names⟩ := ofTypes_eq_ok accepted
  intro name mentioned
  obtain ⟨other, member, rfl⟩ := List.mem_map.1 (declared name mentioned)
  exact (hasNames_iff.1 names).1 other member

/-- In the module of any definition, types and converters agree on a field type over a checked
table. Reading it from JSON fails at no value if and only if the type is its own JSON form, that is
if no part of it is recast. Then both conversions are copies between one type and itself. Its
initial values are taken as they are exactly where both of its forms are spelled alike. And a
converter makes a box for each box of the type that it makes. -/
theorem conversions_agree (accepted : ofTypes types = .ok table)
    (declared : ∀ name ∈ type.references, name ∈ table.names) (owner operand : String) :
    let scope : Scope := ⟨table, owner⟩
    ((scope.jsonReader type operand).fallible = false ↔ type.isJsonIdentity = true) ∧
      (type.isJsonIdentity = true ↔
        ∀ part, FieldType.IsPartOf part type → part.isRecast = false) ∧
      (type.isJsonIdentity = true →
        (∀ form, scope.jsonType type = scope.valueType form type) ∧
          Scope.IsCopy operand (scope.jsonWriter type operand) ∧
          Scope.IsCopy operand (scope.jsonReader type operand).code) ∧
      (scope.initializer type operand = operand ↔
        scope.valueType .fields type = scope.valueType .built type) ∧
      (occurrences "Box" operand = 0 →
        occurrences "Box::new" (scope.treeReader type operand) =
            occurrences "Box<" (scope.valueType .built type) ∧
          occurrences "Box::new" (scope.jsonReader type operand).code =
            occurrences "Box<" (scope.valueType .built type) ∧
          occurrences "Box::new" (scope.jsonWriter type operand) =
            occurrences "Box<" (scope.jsonType type)) := by
  intro scope
  have names := hasIdentifiers_of_declared accepted declared
  refine ⟨?_, FieldType.isJsonIdentity_iff, fun same => ⟨?_, ?_⟩, ?_, fun clear => ?_⟩
  · rw [Scope.fallible_jsonReader, Bool.not_eq_false']
  · exact Scope.jsonType_of_isJsonIdentity same
  · exact Scope.isCopy_of_isJsonIdentity same operand
  · rw [Scope.initializer_eq_self_iff, Scope.valueType_eq_iff]
  · have none : occurrences "Box::new" operand = 0 :=
      Nat.eq_zero_of_le_zero ((count_le_of_starts (by decide) operand.toList).trans clear.le)
    rw [Scope.occurrences_treeReader names, Scope.occurrences_jsonReader names,
      Scope.occurrences_jsonWriter, Scope.occurrences_valueType names,
      Scope.occurrences_jsonType names, none, Nat.zero_add]
    exact ⟨rfl, rfl, rfl⟩

def tiedNodes : FieldType :=
  .hashMap (.primitive (.unsigned .w64)) (.option (.array (.defined "Node") 2))

theorem conversions_agree_knots :
    ofTypes knots = .ok ⟨knots⟩ ∧ (∀ name ∈ tiedNodes.references, name ∈ (mk knots).names) ∧
      occurrences "Box" "&data.tied" = 0 ∧
      occurrences "Box::new" ((Scope.mk ⟨knots⟩ "Node").treeReader tiedNodes "&data.tied") = 1 ∧
      ((Scope.mk ⟨knots⟩ "Node").jsonReader tiedNodes "&data.tied").fallible ≠ false ∧
      (Scope.mk ⟨knots⟩ "Node").initializer tiedNodes "&data.tied" ≠ "&data.tied" := by
  have accepted : ofTypes knots = .ok ⟨knots⟩ := by decide
  have declared : ∀ name ∈ tiedNodes.references, name ∈ (mk knots).names := by decide
  have clear : occurrences "Box" "&data.tied" = 0 := by decide
  obtain ⟨fallible, -, -, initial, boxes⟩ :=
    conversions_agree accepted declared "Node" "&data.tied"
  refine ⟨accepted, declared, clear, ?_, fun sure => ?_, fun same => ?_⟩
  · exact (boxes clear).1.trans (by decide)
  · exact absurd (fallible.1 sure) (by decide)
  · exact absurd (initial.1 same) (by decide)

end Table

end WireSchema
