import WireSchema.Proofs.Rendering.Brackets.Expression
import WireSchema.Proofs.Rendering.Identifiers
import WireSchema.Proofs.Text.Occurrences

/-! Boxes of emitted types and expressions. Both forms of a type have a box for each option that
needs one, and a converter makes as many, beside those of its operand. -/

namespace WireSchema

open Occurrences

/-! ## Names -/

theorem notMem_of_words {text : String} {mark : Char} (words : ∀ c ∈ text.toList, IsWord c)
    (strange : ¬IsWord mark) : mark ∉ text.toList :=
  fun member => strange (words mark member)

namespace Scope

variable {scope : Scope} {name item operand : String}

theorem occurrences_box_itemPath (identifier : IsIdentifier name)
    (words : ∀ c ∈ item.toList, IsWord c) :
    occurrences "Box<" (scope.itemPath name item) = 0 := by
  have clear : '<' ∉ item.toList := notMem_of_words words (by decide)
  have ident : '<' ∉ (Naming.fieldIdent name).toList := fun member =>
    (Naming.isWord_of_mem_fieldIdent identifier '<' member).elim (by decide) (by decide)
  have absent : '<' ∉ (scope.itemPath name item).toList := by
    unfold itemPath
    split
    · exact clear
    · simp only [String.toList_append, List.mem_append, not_or]
      exact ⟨⟨⟨by decide, ident⟩, by decide⟩, clear⟩
  exact count_eq_zero (by decide) absent

/-- The identifier of a module has no capitals, and so no box begins in it. -/
theorem occurrences_boxNew_itemPath (clear : ':' ∉ item.toList) :
    occurrences "Box::new" (scope.itemPath name item) = 0 := by
  have absent : occurrences "Box::new" item = 0 := count_eq_zero (by decide) clear
  have ident : 'B' ∉ (Naming.fieldIdent name).toList := fun member =>
    absurd (Naming.isUpper_of_mem_fieldIdent 'B' member) (by decide)
  unfold itemPath
  split
  · exact absent
  · have front : 'B' ∉ ("super::" ++ Naming.fieldIdent name ++ "::").toList := by
      simp only [String.toList_append, List.mem_append, not_or]
      exact ⟨⟨by decide, ident⟩, by decide⟩
    calc
      _ = count "Box::new".toList
          (("super::" ++ Naming.fieldIdent name ++ "::").toList ++ item.toList) :=
        congrArg (count _) String.toList_append
      _ = occurrences "Box::new" item := count_append_of_notMem front item.toList
      _ = 0 := absent

theorem occurrences_typePath (identifier : IsIdentifier name) :
    occurrences "Box::new" (scope.itemPath name (Naming.typeIdent name)) = 0 :=
  occurrences_boxNew_itemPath
    (notMem_of_words (Naming.isWord_of_mem_typeIdent identifier) (by decide))

/-! ## Types -/

def boxCount (scope : Scope) : FieldType → Nat
  | .primitive _ | .defined _ => 0
  | .vec item | .array item _ => scope.boxCount item
  | .option item => scope.boxCount item + if scope.needsBox item then 1 else 0
  | .hashMap key value => scope.boxCount key + scope.boxCount value

theorem occurrences_primitive (p : Primitive) :
    occurrences "Box<" p.typeText = 0 ∧ occurrences "Box<" p.jsonTypeText = 0 ∧
      occurrences "Box::new" p.accessor = 0 := by
  rcases p with _ | w | w | _ | _ | _ | _ | _
  case unsigned => cases w <;> exact ⟨rfl, rfl, rfl⟩
  case signed => cases w <;> exact ⟨rfl, rfl, rfl⟩
  all_goals exact ⟨rfl, rfl, rfl⟩

theorem occurrences_vecText (item : String) :
    occurrences "Box<" s!"Vec<{item}>" = occurrences "Box<" item :=
  occurrences_joined (.fixed _) [.hole _, .fixed _] rfl

theorem occurrences_arrayText (item : String) (length : Nat) :
    occurrences "Box<" s!"[{item}; {length}]" = occurrences "Box<" item := by
  have digits : occurrences "Box<" (toString length) = 0 :=
    count_eq_zero (c := '<') (by decide)
      (notMem_of_words (isWord_of_mem_toString length) (by decide))
  have sum : occurrences "Box<" s!"[{item}; {length}]" =
      occurrences "Box<" item + occurrences "Box<" (toString length) :=
    occurrences_joined (.fixed _) [.hole _, .fixed _, .hole _, .fixed _] rfl
  rw [sum, digits, Nat.add_zero]

theorem occurrences_optionText (boxed : Bool) : occurrences "Box<" (optionText boxed item) =
    occurrences "Box<" item + if boxed then 1 else 0 := by
  cases boxed with
  | false => exact occurrences_joined (.fixed _) [.hole _, .fixed _] rfl
  | true => exact occurrences_joined (.fixed _) [.hole _, .fixed _] rfl

theorem occurrences_pairsText (key value : String) :
    occurrences "Box<" s!"Vec<({key}, {value})>" =
      occurrences "Box<" key + occurrences "Box<" value :=
  occurrences_joined (.fixed _) [.hole _, .fixed _, .hole _, .fixed _] rfl

theorem occurrences_valueType {form : ValueForm} {type : FieldType}
    (names : type.HasIdentifiers) :
    occurrences "Box<" (scope.valueType form type) = scope.boxCount type := by
  induction type with
  | primitive p => exact (occurrences_primitive p).1
  | vec item ih => exact (occurrences_vecText _).trans (ih names)
  | array item length ih => exact (occurrences_arrayText _ length).trans (ih names)
  | option item ih =>
    exact (occurrences_optionText _).trans (congrArg (· + _) (ih names))
  | hashMap key value keyIh valueIh =>
    obtain ⟨keys, values⟩ := List.forall_mem_append.1 names
    exact (occurrences_pairsText _ _).trans (congrArg₂ (· + ·) (keyIh keys) (valueIh values))
  | defined name =>
    have identifier := names name (List.mem_singleton_self name)
    refine occurrences_box_itemPath identifier ?_
    split
    · exact isWord_of_mem_suffixed identifier (by decide)
    · exact Naming.isWord_of_mem_typeIdent identifier
    · exact isWord_of_mem_suffixed identifier (by decide)

theorem occurrences_jsonType {type : FieldType} (names : type.HasIdentifiers) :
    occurrences "Box<" (scope.jsonType type) = scope.boxCount type := by
  induction type with
  | primitive p => exact (occurrences_primitive p).2.1
  | vec item ih | array item length ih => exact (occurrences_vecText _).trans (ih names)
  | option item ih =>
    exact (occurrences_optionText _).trans (congrArg (· + _) (ih names))
  | hashMap key value keyIh valueIh =>
    obtain ⟨keys, values⟩ := List.forall_mem_append.1 names
    exact (occurrences_pairsText _ _).trans (congrArg₂ (· + ·) (keyIh keys) (valueIh values))
  | defined name =>
    have identifier := names name (List.mem_singleton_self name)
    exact occurrences_box_itemPath identifier (isWord_of_mem_suffixed identifier (by decide))

/-- Values that have the same type in JSON refer to no definition, and so close no cycle. -/
theorem boxCount_of_isJsonIdentity {type : FieldType} (same : type.isJsonIdentity = true) :
    scope.boxCount type = 0 := by
  induction type with
  | primitive p => rfl
  | vec item ih => exact ih same
  | array item length ih => cases same
  | option item ih =>
    have unboxed : scope.needsBox item = false := by
      cases item with
      | defined name => cases same
      | array item length => cases same
      | _ => rfl
    rw [boxCount, ih same, unboxed]
    rfl
  | hashMap key value keyIh valueIh =>
    obtain ⟨keys, values⟩ := Bool.and_eq_true_iff.1 same
    rw [boxCount, keyIh keys, valueIh values]
  | defined name => cases same

/-! ## Trees -/

theorem occurrences_treeReader {type : FieldType} (names : type.HasIdentifiers) :
    occurrences "Box::new" (scope.treeReader type operand) =
      occurrences "Box::new" operand + scope.boxCount type := by
  induction type generalizing operand with
  | primitive p =>
    have sum : occurrences "Box::new" (scope.treeReader (.primitive p) operand) =
        occurrences "Box::new" operand + occurrences "Box::new" p.accessor :=
      occurrences_joined (.hole _) [.fixed _, .hole _, .fixed _] rfl
    rw [sum, (occurrences_primitive p).2.2, boxCount]
  | vec item ih =>
    have inner : occurrences "Box::new" (scope.treeReader item "item") = scope.boxCount item :=
      (ih names).trans (Nat.zero_add _)
    have sum : occurrences "Box::new" (scope.treeReader (.vec item) operand) =
        occurrences "Box::new" operand + occurrences "Box::new" (scope.treeReader item "item") :=
      occurrences_joined (.hole _) [.fixed _, .hole _, .fixed _, .fixed _, .fixed _] rfl
    rw [sum, inner, boxCount]
  | array item length ih =>
    have inner : occurrences "Box::new" (scope.treeReader item "item") = scope.boxCount item :=
      (ih names).trans (Nat.zero_add _)
    have sum : occurrences "Box::new" (scope.treeReader (.array item length) operand) =
        occurrences "Box::new" operand + occurrences "Box::new" (scope.treeReader item "item") :=
      occurrences_joined (.hole _) [.fixed _, .hole _, .fixed _, .fixed _, .fixed _, .fixed _] rfl
    rw [sum, inner, boxCount]
  | option item ih =>
    have inner : occurrences "Box::new" (scope.treeReader item "item") = scope.boxCount item :=
      (ih names).trans (Nat.zero_add _)
    rw [boxCount, ← inner]
    by_cases boxed : scope.needsBox item = true
    · rw [treeReader, if_pos boxed, if_pos boxed]
      exact occurrences_joined (.hole _) [.fixed _, .hole _, .fixed _, .fixed _] rfl
    · rw [treeReader, if_neg boxed, if_neg boxed]
      show occurrences "Box::new" (_ ++ "" ++ _) = _
      rw [String.append_empty]
      exact occurrences_joined (.hole _) [.fixed _, .hole _, .fixed _] rfl
  | hashMap key value keyIh valueIh =>
    obtain ⟨keys, values⟩ := List.forall_mem_append.1 names
    have first : occurrences "Box::new" (scope.treeReader key "key") = scope.boxCount key :=
      (keyIh keys).trans (Nat.zero_add _)
    have second : occurrences "Box::new" (scope.treeReader value "val") = scope.boxCount value :=
      (valueIh values).trans (Nat.zero_add _)
    rw [boxCount, ← first, ← second, treeReader]
    simp only [← String.append_assoc]
    exact occurrences_joined (.hole _)
      [.fixed _, .fixed _, .hole _, .fixed _, .hole _, .fixed _, .fixed _, .fixed _] rfl
  | defined name =>
    have identifier := names name (List.mem_singleton_self name)
    rw [treeReader]
    split
    · exact (occurrences_joined (.hole _) [.fixed _, .hole _, .fixed _] rfl).trans
        (Nat.add_eq_right.2 (occurrences_typePath identifier))
    · exact (occurrences_joined (.hole _) [.fixed _, .hole _, .fixed _] rfl).trans
        (Nat.add_eq_right.2 (occurrences_boxNew_itemPath (by decide)))

/-! ## JSON -/

/-- A borrow makes no box. -/
theorem occurrences_place {place : List Char} (spelled : operand.toList = '&' :: place) :
    occurrences "Box::new" (String.ofList place) = occurrences "Box::new" operand := by
  rw [occurrences, occurrences, spelled]
  calc
    count "Box::new".toList (String.ofList place).toList = count "Box::new".toList place :=
      congrArg (count _) String.toList_ofList
    _ = count "Box::new".toList ('&' :: place) := rfl

theorem occurrences_operandPlace (operand : String) :
    occurrences "Box::new" (operandPlace operand) = occurrences "Box::new" operand := by
  rw [operandPlace]
  split
  next place spelled => exact occurrences_place spelled
  next => rfl

theorem occurrences_operandCopy (operand : String) :
    occurrences "Box::new" (operandCopy operand) = occurrences "Box::new" operand := by
  rw [operandCopy]
  split
  next place spelled => exact occurrences_place spelled
  next => exact occurrences_joined (.fixed _) [.hole _] rfl

theorem occurrences_clone (operand : String) :
    occurrences "Box::new" s!"{operandPlace operand}.clone()" = occurrences "Box::new" operand :=
  (occurrences_joined (.hole _) [.fixed _] rfl).trans (occurrences_operandPlace operand)

theorem occurrences_boxed (inner : String) :
    occurrences "Box::new" s!"Box::new({inner})" = occurrences "Box::new" inner + 1 :=
  occurrences_joined (.fixed _) [.hole _, .fixed _] rfl

theorem occurrences_mappedItems {collect : String} (clear : occurrences "Box::new" collect = 0)
    (operand inner : String) :
    occurrences "Box::new" s!"{operandPlace operand}.iter().map(|item| {inner}).{collect}" =
      occurrences "Box::new" operand + occurrences "Box::new" inner := by
  have sum : occurrences "Box::new"
      s!"{operandPlace operand}.iter().map(|item| {inner}).{collect}" =
      occurrences "Box::new" (operandPlace operand) +
        (occurrences "Box::new" inner + occurrences "Box::new" collect) :=
    occurrences_joined (.hole _) [.fixed _, .hole _, .fixed _, .hole _] rfl
  rw [sum, occurrences_operandPlace, clear, Nat.add_zero]

theorem occurrences_mappedItem (operand inner : String) :
    occurrences "Box::new" s!"{operandPlace operand}.as_ref().map(|item| {inner})" =
      occurrences "Box::new" operand + occurrences "Box::new" inner := by
  rw [← occurrences_operandPlace operand]
  exact occurrences_joined (.hole _) [.fixed _, .hole _, .fixed _] rfl

theorem occurrences_mappedPairs (operand first second : String) :
    occurrences "Box::new"
        s!"{operandPlace operand}.iter().map(|(key, val)| ({first}, {second})).{collectVec}" =
      occurrences "Box::new" operand +
        (occurrences "Box::new" first + occurrences "Box::new" second) := by
  rw [← occurrences_operandPlace operand]
  exact occurrences_joined (.hole _)
    [.fixed _, .hole _, .fixed _, .hole _, .fixed _, .fixed _] rfl

theorem occurrences_jsonWriter {type : FieldType} :
    occurrences "Box::new" (scope.jsonWriter type operand) =
      occurrences "Box::new" operand + scope.boxCount type := by
  induction type generalizing operand with
  | primitive p =>
    have shown : occurrences "Box::new" s!"{operandPlace operand}.to_string()" =
        occurrences "Box::new" operand :=
      (occurrences_joined (.hole _) [.fixed _] rfl).trans (occurrences_operandPlace operand)
    rw [jsonWriter]
    split_ifs
    · exact occurrences_operandCopy operand
    · exact shown
    · exact occurrences_clone operand
  | vec item ih =>
    have inner : occurrences "Box::new" (scope.jsonWriter item "item") = scope.boxCount item :=
      ih.trans (Nat.zero_add _)
    rw [jsonWriter, boxCount]
    split
    next same =>
      rw [boxCount_of_isJsonIdentity same]
      exact occurrences_clone operand
    next => rw [occurrences_mappedItems rfl, inner]
  | array item length ih =>
    have inner : occurrences "Box::new" (scope.jsonWriter item "item") = scope.boxCount item :=
      ih.trans (Nat.zero_add _)
    rw [jsonWriter, boxCount, occurrences_mappedItems rfl, inner]
  | option item ih =>
    have inner : occurrences "Box::new" (scope.jsonWriter item "item") = scope.boxCount item :=
      ih.trans (Nat.zero_add _)
    rw [jsonWriter]
    split
    next same =>
      have plain : scope.boxCount (.option item) = 0 := boxCount_of_isJsonIdentity same
      rw [plain]
      exact occurrences_clone operand
    next =>
      rw [occurrences_mappedItem, boxCount, ← inner]
      split
      next => rw [occurrences_boxed]
      next => rfl
  | hashMap key value keyIh valueIh =>
    have first : occurrences "Box::new" (scope.jsonWriter key "key") = scope.boxCount key :=
      keyIh.trans (Nat.zero_add _)
    have second : occurrences "Box::new" (scope.jsonWriter value "val") = scope.boxCount value :=
      valueIh.trans (Nat.zero_add _)
    rw [jsonWriter]
    split
    next same =>
      have plain : scope.boxCount (.hashMap key value) = 0 := boxCount_of_isJsonIdentity same
      rw [plain]
      exact occurrences_clone operand
    next => rw [occurrences_mappedPairs, first, second, boxCount]
  | defined name =>
    exact (occurrences_joined (.hole _) [.fixed _] rfl).trans (occurrences_operandPlace operand)

theorem occurrences_unwrap (e : Expression) :
    occurrences "Box::new" e.unwrap = occurrences "Box::new" e.code := by
  rw [Expression.unwrap]
  split
  · exact occurrences_joined (.hole _) [.fixed _] rfl
  · rfl

theorem occurrences_collected (operand : String) (item : Expression) :
    occurrences "Box::new" (collected operand item).code =
      occurrences "Box::new" operand + occurrences "Box::new" item.code := by
  refine occurrences_mappedItems ?_ operand item.code
  split <;> rfl

theorem occurrences_collectedArray (operand : String) {verbatim : Bool} {item : Expression}
    (clear : verbatim = true → occurrences "Box::new" item.code = 0) :
    occurrences "Box::new" (collectedArray operand verbatim item).code =
      occurrences "Box::new" operand + occurrences "Box::new" item.code := by
  rw [collectedArray]
  split
  next same =>
    rw [clear same, Nat.add_zero, ← occurrences_operandPlace operand]
    exact occurrences_joined (.fixed _) [.hole _, .fixed _] rfl
  next =>
    rw [← occurrences_collected operand item]
    generalize (collected operand item).code = items
    split
    · exact occurrences_joined (.hole _) [.fixed _] rfl
    · exact occurrences_joined (.fixed _) [.hole _, .fixed _] rfl

theorem occurrences_mappedOption (operand : String) (boxed : Bool) (item : Expression) :
    occurrences "Box::new" (mappedOption operand boxed item).code =
      occurrences "Box::new" operand +
        (occurrences "Box::new" item.code + if boxed then 1 else 0) := by
  have sum {transpose : String} (clear : occurrences "Box::new" transpose = 0) (inner : String) :
      occurrences "Box::new"
          s!"{operandPlace operand}.as_ref().map(|item| {inner}){transpose}" =
        occurrences "Box::new" operand + occurrences "Box::new" inner := by
    rw [← occurrences_operandPlace operand, ← Nat.add_zero (occurrences _ inner), ← clear]
    exact occurrences_joined (.hole _) [.fixed _, .hole _, .fixed _, .hole _] rfl
  refine (sum (by split <;> rfl) _).trans (congrArg (occurrences "Box::new" operand + ·) ?_)
  split
  · exact occurrences_joined (.hole _) [.fixed _] rfl
  · exact occurrences_boxed item.code
  · rfl

theorem occurrences_collectedPairs (operand : String) (key value : Expression) :
    occurrences "Box::new" (collectedPairs operand key value).code =
      occurrences "Box::new" operand +
        (occurrences "Box::new" key.code + occurrences "Box::new" value.code) := by
  rw [collectedPairs]
  split
  · rw [← occurrences_operandPlace operand, ← occurrences_unwrap key, ← occurrences_unwrap value]
    simp only [← String.append_assoc]
    exact occurrences_joined (.hole _)
      [.fixed _, .hole _, .fixed _, .hole _, .fixed _, .fixed _] rfl
  · exact occurrences_mappedPairs operand key.code value.code

theorem occurrences_jsonReader {type : FieldType} (names : type.HasIdentifiers) :
    occurrences "Box::new" (scope.jsonReader type operand).code =
      occurrences "Box::new" operand + scope.boxCount type := by
  induction type generalizing operand with
  | primitive p =>
    rw [jsonReader]
    split_ifs
    · exact occurrences_operandCopy operand
    · exact occurrences_joined (.fixed _) [.hole _, .fixed _] rfl
    · exact occurrences_joined (.fixed _) [.hole _, .fixed _] rfl
    · exact occurrences_clone operand
  | vec item ih =>
    have inner : occurrences "Box::new" (scope.jsonReader item "item").code =
        scope.boxCount item := (ih names).trans (Nat.zero_add _)
    rw [jsonReader, boxCount]
    split
    next same =>
      rw [boxCount_of_isJsonIdentity same]
      exact occurrences_clone operand
    next => rw [occurrences_collected, inner]
  | array item length ih =>
    have inner : occurrences "Box::new" (scope.jsonReader item "item").code =
        scope.boxCount item := (ih names).trans (Nat.zero_add _)
    rw [jsonReader, boxCount, occurrences_collectedArray, inner]
    exact fun same => inner.trans (boxCount_of_isJsonIdentity same)
  | option item ih =>
    have inner : occurrences "Box::new" (scope.jsonReader item "item").code =
        scope.boxCount item := (ih names).trans (Nat.zero_add _)
    rw [jsonReader]
    split
    next same =>
      have plain : scope.boxCount (.option item) = 0 := boxCount_of_isJsonIdentity same
      rw [plain]
      exact occurrences_clone operand
    next => rw [occurrences_mappedOption, inner, boxCount]
  | hashMap key value keyIh valueIh =>
    obtain ⟨keys, values⟩ := List.forall_mem_append.1 names
    have first : occurrences "Box::new" (scope.jsonReader key "key").code = scope.boxCount key :=
      (keyIh keys).trans (Nat.zero_add _)
    have second : occurrences "Box::new" (scope.jsonReader value "val").code =
        scope.boxCount value := (valueIh values).trans (Nat.zero_add _)
    rw [jsonReader]
    split
    next same =>
      have plain : scope.boxCount (.hashMap key value) = 0 := boxCount_of_isJsonIdentity same
      rw [plain]
      exact occurrences_clone operand
    next => rw [occurrences_collectedPairs, first, second, boxCount]
  | defined name =>
    have identifier := names name (List.mem_singleton_self name)
    rw [jsonReader]
    split
    · exact (occurrences_joined (.hole _) [.fixed _, .hole _, .fixed _] rfl).trans
        (Nat.add_eq_right.2 (occurrences_typePath identifier))
    · exact (occurrences_joined (.hole _) [.fixed _, .hole _, .fixed _] rfl).trans
        (Nat.add_eq_right.2 (occurrences_boxNew_itemPath (by decide)))

end Scope

end WireSchema
