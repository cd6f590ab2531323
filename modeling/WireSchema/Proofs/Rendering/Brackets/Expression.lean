import WireSchema.Proofs.Text.Brackets
import WireSchema.Rendering.Expression

/-! Brackets of emitted types and expressions. What is emitted for a type is matched, if the names
that the type mentions are identifiers and the operand is matched. -/

namespace WireSchema

open Brackets

/-! ## Names -/

namespace Naming

variable {name : String}

theorem isPlain_fieldIdent (identifier : IsIdentifier name) : IsPlain (fieldIdent name) := by
  intro c member
  obtain word | rfl := isWord_of_mem_fieldIdent identifier c member
  · exact isBracket_of_isWord word
  · rfl

theorem isPlain_pascalCase (identifier : IsIdentifier name) : IsPlain (pascalCase name) :=
  fun c member => isBracket_of_isWord (isWord_of_mem_pascalCase identifier c member)

theorem isPlain_typeIdent (identifier : IsIdentifier name) : IsPlain (typeIdent name) :=
  fun c member => isBracket_of_isWord (isWord_of_mem_typeIdent identifier c member)

theorem isPlain_fieldsItem (identifier : IsIdentifier name) : IsPlain (fieldsItem name) :=
  isPlain_append.2 ⟨isPlain_pascalCase identifier, isPlain_of_all rfl⟩

theorem isPlain_jsonItem (identifier : IsIdentifier name) : IsPlain (jsonItem name) :=
  isPlain_append.2 ⟨isPlain_pascalCase identifier, isPlain_of_all rfl⟩

theorem isPlain_kindItem (identifier : IsIdentifier name) : IsPlain (kindItem name) :=
  isPlain_append.2 ⟨isPlain_pascalCase identifier, isPlain_of_all rfl⟩

end Naming

def FieldType.HasIdentifiers (type : FieldType) : Prop :=
  ∀ name ∈ type.references, IsIdentifier name

theorem isMatched_primitive (p : Primitive) :
    IsMatched p.typeText ∧ IsMatched p.jsonTypeText ∧ IsMatched p.accessor := by
  rcases p with _ | w | w | _ | _ | _ | _ | _
  case unsigned => cases w <;> exact ⟨rfl, rfl, rfl⟩
  case signed => cases w <;> exact ⟨rfl, rfl, rfl⟩
  all_goals exact ⟨rfl, rfl, rfl⟩

theorem isWord_of_mem_toString (n : Nat) : ∀ c ∈ (toString n).toList, IsWord c := by
  rw [Nat.toString_eq_repr, Nat.toList_repr]
  exact fun c member => .inr (inRange_iff.1
    (Nat.isDigit_of_mem_toDigits (by decide) (by decide) member))

theorem isPlain_toString (n : Nat) : IsPlain (toString n) :=
  fun c member => isBracket_of_isWord (isWord_of_mem_toString n c member)

namespace Scope

variable {scope : Scope} {name item operand : String}

theorem isMatched_itemPath (identifier : IsIdentifier name) (matched : IsMatched item) :
    IsMatched (scope.itemPath name item) := by
  have ident := (Naming.isPlain_fieldIdent identifier).isMatched
  unfold itemPath
  exact isMatched_ite matched
    (isMatched_joined (.fixed _) [.filled ident, .fixed _, .filled matched] rfl)

/-! ## Types -/

theorem isMatched_optionText (boxed : Bool) (matched : IsMatched item) :
    IsMatched (optionText boxed item) := by
  unfold optionText
  exact isMatched_ite (isMatched_joined (.fixed _) [.filled matched, .fixed _] rfl)
    (isMatched_joined (.fixed _) [.filled matched, .fixed _] rfl)

theorem isMatched_valueType {form : ValueForm} {type : FieldType} (names : type.HasIdentifiers) :
    IsMatched (scope.valueType form type) := by
  induction type with
  | primitive p => exact (isMatched_primitive p).1
  | vec item ih =>
    unfold valueType
    exact isMatched_joined (.fixed _) [.filled (ih names), .fixed _] rfl
  | array item length ih =>
    have digits := (isPlain_toString length).isMatched
    unfold valueType
    exact isMatched_joined (.fixed _)
      [.filled (ih names), .fixed _, .filled digits, .fixed _] rfl
  | option item ih => exact isMatched_optionText _ (ih names)
  | hashMap key value keyIh valueIh =>
    obtain ⟨keys, values⟩ := List.forall_mem_append.1 names
    unfold valueType
    exact isMatched_joined (.fixed _)
      [.filled (keyIh keys), .fixed _, .filled (valueIh values), .fixed _] rfl
  | defined name =>
    have identifier := names name (List.mem_singleton_self name)
    refine isMatched_itemPath identifier ?_
    split
    · exact (Naming.isPlain_fieldsItem identifier).isMatched
    · exact (Naming.isPlain_typeIdent identifier).isMatched
    · exact (Naming.isPlain_kindItem identifier).isMatched

theorem isMatched_jsonType {type : FieldType} (names : type.HasIdentifiers) :
    IsMatched (scope.jsonType type) := by
  induction type with
  | primitive p => exact (isMatched_primitive p).2.1
  | vec item ih | array item length ih =>
    unfold jsonType
    exact isMatched_joined (.fixed _) [.filled (ih names), .fixed _] rfl
  | option item ih => exact isMatched_optionText _ (ih names)
  | hashMap key value keyIh valueIh =>
    obtain ⟨keys, values⟩ := List.forall_mem_append.1 names
    unfold jsonType
    exact isMatched_joined (.fixed _)
      [.filled (keyIh keys), .fixed _, .filled (valueIh values), .fixed _] rfl
  | defined name =>
    have identifier := names name (List.mem_singleton_self name)
    exact isMatched_itemPath identifier (Naming.isPlain_jsonItem identifier).isMatched

/-! ## Trees -/

-- The fixed parts of what reads a map are gone through at once.
set_option maxRecDepth 700 in
theorem isMatched_treeReader {type : FieldType} (names : type.HasIdentifiers)
    (matched : IsMatched operand) : IsMatched (scope.treeReader type operand) := by
  induction type generalizing operand with
  | primitive p =>
    obtain ⟨-, -, accessor⟩ := isMatched_primitive p
    unfold treeReader
    exact isMatched_joined (.filled matched) [.fixed _, .filled accessor, .fixed _] rfl
  | vec item ih =>
    have inner : IsMatched (scope.treeReader item "item") := ih names rfl
    unfold treeReader
    exact isMatched_joined (.filled matched)
      [.fixed _, .filled inner, .fixed _, .fixed _, .fixed _] rfl
  | array item length ih =>
    have inner : IsMatched (scope.treeReader item "item") := ih names rfl
    unfold treeReader
    exact isMatched_append (isMatched_joined (.filled matched)
      [.fixed _, .filled inner, .fixed _, .fixed _, .fixed _] rfl) (isMatched_ofList rfl)
  | option item ih =>
    have inner : IsMatched (scope.treeReader item "item") := ih names rfl
    have boxing : IsMatched (if scope.needsBox item then ".map(Box::new)" else "") :=
      isMatched_ite (isMatched_ofList rfl) rfl
    unfold treeReader
    exact isMatched_joined (.filled matched)
      [.fixed _, .filled inner, .filled boxing, .fixed _] rfl
  | hashMap key value keyIh valueIh =>
    obtain ⟨keys, values⟩ := List.forall_mem_append.1 names
    have first : IsMatched (scope.treeReader key "key") := keyIh keys rfl
    have second : IsMatched (scope.treeReader value "val") := valueIh values rfl
    unfold treeReader
    simp only [← String.append_assoc]
    exact isMatched_joined (.filled matched) [.fixed _, .fixed _, .filled first, .fixed _,
      .filled second, .fixed _, .fixed _, .fixed _] rfl
  | defined name =>
    have identifier := names name (List.mem_singleton_self name)
    have struct : IsMatched (scope.itemPath name (Naming.typeIdent name)) :=
      isMatched_itemPath identifier (Naming.isPlain_typeIdent identifier).isMatched
    have enum : IsMatched (scope.itemPath name "from_decoded") := isMatched_itemPath identifier rfl
    unfold treeReader
    split
    · exact isMatched_joined (.filled struct) [.fixed _, .filled matched, .fixed _] rfl
    · exact isMatched_joined (.filled enum) [.fixed _, .filled matched, .fixed _] rfl

theorem isMatched_operandPlace (matched : IsMatched operand) :
    IsMatched (operandPlace operand) := by
  rw [operandPlace]
  split
  next place spelled =>
    rw [IsMatched, spelled, run_cons_other rfl] at matched
    rwa [IsMatched, String.toList_ofList]
  next => exact matched

theorem isMatched_operandCopy (matched : IsMatched operand) : IsMatched (operandCopy operand) := by
  rw [operandCopy]
  split
  next place spelled =>
    rw [IsMatched, spelled, run_cons_other rfl] at matched
    rwa [IsMatched, String.toList_ofList]
  next => exact isMatched_append rfl matched

theorem isMatched_treeWriter {form : ValueForm} {type : FieldType} (names : type.HasIdentifiers)
    (matched : IsMatched operand) : IsMatched (scope.treeWriter form type operand) := by
  have place := isMatched_operandPlace matched
  induction type generalizing operand with
  | primitive p =>
    unfold treeWriter
    exact isMatched_joined (.fixed _) [.filled matched, .fixed _] rfl
  | vec item ih | array item length ih =>
    have inner : IsMatched (scope.treeWriter form item "item") := ih names rfl rfl
    unfold treeWriter
    exact isMatched_joined (.fixed _) [.filled place, .fixed _, .filled inner, .fixed _] rfl
  | option item ih =>
    have inner : IsMatched (scope.treeWriter form item "item") := ih names rfl rfl
    unfold treeWriter
    exact isMatched_joined (.fixed _) [.filled place, .fixed _, .filled inner, .fixed _] rfl
  | hashMap key value keyIh valueIh =>
    obtain ⟨keys, values⟩ := List.forall_mem_append.1 names
    have first : IsMatched (scope.treeWriter form key "key") := keyIh keys rfl rfl
    have second : IsMatched (scope.treeWriter form value "val") := valueIh values rfl rfl
    unfold treeWriter
    simp only [← String.append_assoc]
    exact isMatched_joined (.fixed _) [.filled place, .fixed _, .fixed _, .filled first, .fixed _,
      .filled second, .fixed _] rfl
  | defined name =>
    have identifier := names name (List.mem_singleton_self name)
    have struct : IsMatched (scope.itemPath name (Naming.typeIdent name)) :=
      isMatched_itemPath identifier (Naming.isPlain_typeIdent identifier).isMatched
    unfold treeWriter
    split
    · exact isMatched_joined (.filled struct) [.fixed _, .filled matched, .fixed _] rfl
    · exact isMatched_joined (.filled place) [.fixed _] rfl
    · exact isMatched_joined (.filled place) [.fixed _] rfl

/-! ## JSON -/

theorem isMatched_clone (matched : IsMatched operand) :
    IsMatched s!"{operandPlace operand}.clone()" :=
  isMatched_joined (.filled (isMatched_operandPlace matched)) [.fixed _] rfl

theorem isMatched_boxed {inner : String} (matched : IsMatched inner) :
    IsMatched s!"Box::new({inner})" :=
  isMatched_joined (.fixed _) [.filled matched, .fixed _] rfl

theorem isMatched_mappedItems {inner collect : String} (matched : IsMatched operand)
    (matched' : IsMatched inner) (collects : IsMatched collect) :
    IsMatched s!"{operandPlace operand}.iter().map(|item| {inner}).{collect}" :=
  isMatched_joined (.filled (isMatched_operandPlace matched))
    [.fixed _, .filled matched', .fixed _, .filled collects] rfl

theorem isMatched_mappedItem {inner : String} (matched : IsMatched operand)
    (matched' : IsMatched inner) :
    IsMatched s!"{operandPlace operand}.as_ref().map(|item| {inner})" :=
  isMatched_joined (.filled (isMatched_operandPlace matched))
    [.fixed _, .filled matched', .fixed _] rfl

theorem isMatched_mappedPairs {first second : String} (matched : IsMatched operand)
    (keys : IsMatched first) (values : IsMatched second) :
    IsMatched
      s!"{operandPlace operand}.iter().map(|(key, val)| ({first}, {second})).{collectVec}" :=
  isMatched_joined (.filled (isMatched_operandPlace matched))
    [.fixed _, .filled keys, .fixed _, .filled values, .fixed _, .fixed _] rfl

theorem isMatched_jsonWriter {type : FieldType} (names : type.HasIdentifiers)
    (matched : IsMatched operand) : IsMatched (scope.jsonWriter type operand) := by
  induction type generalizing operand with
  | primitive p =>
    unfold jsonWriter
    exact isMatched_ite (isMatched_operandCopy matched) (isMatched_ite
      (isMatched_joined (.filled (isMatched_operandPlace matched)) [.fixed _] rfl)
      (isMatched_clone matched))
  | vec item ih =>
    unfold jsonWriter
    exact isMatched_ite (isMatched_clone matched) (isMatched_mappedItems matched (ih names rfl) rfl)
  | array item length ih =>
    unfold jsonWriter
    exact isMatched_mappedItems matched (ih names rfl) rfl
  | option item ih =>
    have inner : IsMatched (scope.jsonWriter item "item") := ih names rfl
    unfold jsonWriter
    exact isMatched_ite (isMatched_clone matched)
      (isMatched_mappedItem matched (isMatched_ite (isMatched_boxed inner) inner))
  | hashMap key value keyIh valueIh =>
    obtain ⟨keys, values⟩ := List.forall_mem_append.1 names
    unfold jsonWriter
    exact isMatched_ite (isMatched_clone matched)
      (isMatched_mappedPairs matched (keyIh keys rfl) (valueIh values rfl))
  | defined name =>
    unfold jsonWriter
    exact isMatched_joined (.filled (isMatched_operandPlace matched)) [.fixed _] rfl

theorem isMatched_unwrap {e : Expression} (matched : IsMatched e.code) : IsMatched e.unwrap := by
  unfold Expression.unwrap
  exact isMatched_ite (isMatched_append matched rfl) matched

theorem isMatched_unwrapWithin {e : Expression} {segment : String} (matched : IsMatched e.code)
    (plain : IsPlain segment) : IsMatched (e.unwrapWithin segment) := by
  unfold Expression.unwrapWithin
  exact isMatched_ite (isMatched_joined (.filled matched)
    [.fixed _, .filled (isMatched_quote plain), .fixed _] rfl) matched

theorem isMatched_collected {item : Expression} (matched : IsMatched operand)
    (matched' : IsMatched item.code) : IsMatched (collected operand item).code :=
  isMatched_mappedItems matched matched' (isMatched_ite (isMatched_ofList rfl) rfl)

theorem isMatched_collectedArray {item : Expression} (matched : IsMatched operand) (verbatim : Bool)
    (matched' : IsMatched item.code) : IsMatched (collectedArray operand verbatim item).code := by
  have place := isMatched_operandPlace matched
  have items := isMatched_collected matched matched'
  exact isMatched_ite (isMatched_joined (.fixed _) [.filled place, .fixed _] rfl)
    (isMatched_ite (isMatched_joined (.filled items) [.fixed _] rfl)
      (isMatched_joined (.fixed _) [.filled items, .fixed _] rfl))

theorem isMatched_mappedOption {item : Expression} (matched : IsMatched operand) (boxed : Bool)
    (matched' : IsMatched item.code) : IsMatched (mappedOption operand boxed item).code := by
  refine isMatched_append (isMatched_mappedItem matched ?_) (isMatched_ite rfl rfl)
  split
  · exact isMatched_append matched' (isMatched_ofList rfl)
  · exact isMatched_boxed matched'
  · exact matched'

theorem isMatched_collectedPairs {key value : Expression} (matched : IsMatched operand)
    (keys : IsMatched key.code) (values : IsMatched value.code) :
    IsMatched (collectedPairs operand key value).code := by
  have place := isMatched_operandPlace matched
  unfold collectedPairs
  split
  · simp only [← String.append_assoc]
    exact isMatched_joined (.filled place) [.fixed _, .filled (isMatched_unwrap keys), .fixed _,
      .filled (isMatched_unwrap values), .fixed _, .fixed _] rfl
  · exact isMatched_mappedPairs matched keys values

theorem isMatched_jsonReader {type : FieldType} (names : type.HasIdentifiers)
    (matched : IsMatched operand) : IsMatched (scope.jsonReader type operand).code := by
  induction type generalizing operand with
  | primitive p =>
    unfold jsonReader
    split_ifs
    · exact isMatched_operandCopy matched
    · exact isMatched_joined (.fixed _) [.filled matched, .fixed _] rfl
    · exact isMatched_joined (.fixed _) [.filled matched, .fixed _] rfl
    · exact isMatched_clone matched
  | vec item ih =>
    unfold jsonReader
    split
    · exact isMatched_clone matched
    · exact isMatched_collected matched (ih names rfl)
  | array item length ih =>
    unfold jsonReader
    exact isMatched_collectedArray matched _ (ih names rfl)
  | option item ih =>
    unfold jsonReader
    split
    · exact isMatched_clone matched
    · exact isMatched_mappedOption matched _ (ih names rfl)
  | hashMap key value keyIh valueIh =>
    obtain ⟨keys, values⟩ := List.forall_mem_append.1 names
    unfold jsonReader
    split
    · exact isMatched_clone matched
    · exact isMatched_collectedPairs matched (keyIh keys rfl) (valueIh values rfl)
  | defined name =>
    have identifier := names name (List.mem_singleton_self name)
    have struct : IsMatched (scope.itemPath name (Naming.typeIdent name)) :=
      isMatched_itemPath identifier (Naming.isPlain_typeIdent identifier).isMatched
    have enum : IsMatched (scope.itemPath name "from_json") := isMatched_itemPath identifier rfl
    unfold jsonReader
    split
    · exact isMatched_joined (.filled struct) [.fixed _, .filled matched, .fixed _] rfl
    · exact isMatched_joined (.filled enum) [.fixed _, .filled matched, .fixed _] rfl

/-! ## Initial values -/

theorem isMatched_unboxed (type : FieldType) : IsMatched (unboxed type) := by
  unfold unboxed
  split <;> rfl

theorem isMatched_initializer {type : FieldType} (names : type.HasIdentifiers)
    (matched : IsMatched operand) : IsMatched (scope.initializer type operand) := by
  induction type generalizing operand with
  | primitive p => exact matched
  | vec item ih =>
    have inner : IsMatched (scope.initializer item "item") := ih names rfl
    unfold initializer
    exact isMatched_ite
      (isMatched_joined (.filled matched) [.fixed _, .filled inner, .fixed _, .fixed _] rfl) matched
  | array item length ih =>
    have inner : IsMatched (scope.initializer item "item") := ih names rfl
    unfold initializer
    exact isMatched_ite
      (isMatched_joined (.filled matched) [.fixed _, .filled inner, .fixed _] rfl) matched
  | option item ih =>
    have inner : IsMatched (if scope.needsBox item then
        s!"Box::new({scope.initializer item (unboxed item)})" else scope.initializer item "item") :=
      isMatched_ite (isMatched_boxed (ih names (isMatched_unboxed item))) (ih names rfl)
    unfold initializer
    exact isMatched_ite
      (isMatched_joined (.filled matched) [.fixed _, .filled inner, .fixed _] rfl) matched
  | hashMap key value keyIh valueIh =>
    obtain ⟨keys, values⟩ := List.forall_mem_append.1 names
    have first : IsMatched (scope.initializer key "key") := keyIh keys rfl
    have second : IsMatched (scope.initializer value "val") := valueIh values rfl
    unfold initializer
    exact isMatched_ite (isMatched_joined (.filled matched)
      [.fixed _, .filled first, .fixed _, .filled second, .fixed _, .fixed _] rfl) matched
  | defined name =>
    have identifier := names name (List.mem_singleton_self name)
    have struct : IsMatched (scope.itemPath name (Naming.typeIdent name)) :=
      isMatched_itemPath identifier (Naming.isPlain_typeIdent identifier).isMatched
    unfold initializer
    split
    · exact isMatched_joined (.filled struct) [.fixed _, .filled matched, .fixed _] rfl
    · exact matched

end Scope

end WireSchema
