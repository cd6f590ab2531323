import WireSchema.Proofs.Rendering.Brackets.Members
import WireSchema.Proofs.Source
import WireSchema.Rendering.StructModule

/-! Brackets of the module of a struct. Each of its parts closes what it opens. -/

namespace WireSchema

open Brackets

theorem isBalanced_renameLines {ident name : String} (plain : IsPlain name) :
    (renameLines ident name).IsBalanced := by
  unfold renameLines
  split
  · exact Source.isBalanced_nil
  · exact Source.isBalanced_line
      (isMatched_joined (.fixed _) [.filled (isMatched_quote plain), .fixed _] rfl)

namespace Scope

variable {scope : Scope} {members : List Member}

/-! ## Members -/

theorem isBalanced_memberLines {form : ValueForm} (named : ∀ m ∈ members, m.HasIdentifiers) :
    (scope.memberLines form members).IsBalanced := by
  refine Source.isBalanced_map_line fun m inside => ?_
  obtain ⟨ident, -, type⟩ := named m inside
  exact isMatched_joined (.fixed _)
    [.filled ident.isMatched, .fixed _, .filled (isMatched_valueType type), .fixed _] rfl

theorem isBalanced_jsonMemberLines (named : ∀ m ∈ members, m.HasIdentifiers) :
    (scope.jsonMemberLines members).IsBalanced := by
  refine Source.isBalanced_flatMap fun m inside => ?_
  obtain ⟨ident, name, type⟩ := named m inside
  exact (isBalanced_renameLines name).append <| Source.isBalanced_line <|
    isMatched_joined (.fixed _)
      [.filled ident.isMatched, .fixed _, .filled (isMatched_jsonType type), .fixed _] rfl

theorem isBalanced_initialLines {expression : Member → String}
    (named : ∀ m ∈ members, m.HasIdentifiers)
    (matched : ∀ m, m.HasIdentifiers → IsMatched (expression m)) :
    (initialLines members expression).IsBalanced := by
  refine Source.isBalanced_map_line fun m inside => ?_
  have each := named m inside
  exact isMatched_joined (.filled each.ident.isMatched)
    [.fixed _, .filled (matched m each), .fixed _] rfl

theorem isBalanced_entryLines {expression : Member → String}
    (named : ∀ m ∈ members, m.HasIdentifiers)
    (matched : ∀ m, m.HasIdentifiers → IsMatched (expression m)) :
    (entryLines members expression).IsBalanced := by
  refine Source.isBalanced_map_line fun m inside => ?_
  have each := named m inside
  exact isMatched_joined (.fixed _)
    [.filled (isMatched_quote each.name), .fixed _, .filled (matched m each), .fixed _] rfl

theorem isMatched_fieldReader {record key : String} {type : FieldType} (matched : IsMatched record)
    (plain : IsPlain key) (names : type.HasIdentifiers) :
    IsMatched (scope.fieldReader record key type) := by
  have reader : IsMatched (scope.treeReader type "v") := isMatched_treeReader names rfl
  exact isMatched_joined (.fixed _) [.filled matched, .fixed _, .filled (isMatched_quote plain),
    .fixed _, .filled reader, .fixed _] rfl

/-! ## Methods -/

theorem isBalanced_structConverter {signature record : String} {form : ValueForm}
    (matched : IsMatched signature) (matched' : IsMatched record)
    (named : ∀ m ∈ members, m.HasIdentifiers) :
    (scope.structConverter signature form record members).IsBalanced := by
  refine Source.IsBalanced.block ?_ matched
  split
  · exact Source.isBalanced_line (isMatched_ofList rfl)
  · refine (isBalanced_entryLines named fun m each => ?_).continued
      (isMatched_joined (.fixed _) [.fixed _] rfl)
    exact isMatched_treeWriter each.type
      (isMatched_joined (.fixed _) [.filled matched', .fixed _, .filled each.ident.isMatched] rfl)

theorem isBalanced_structMethods {layout : Layout} (owner : IsIdentifier scope.owner)
    (matched : IsMatched layout.builder) (named : ∀ m ∈ members, m.HasIdentifiers) :
    ∀ method ∈ scope.structMethods layout members, method.IsBalanced := by
  have fieldsItem := (Naming.isPlain_fieldsItem owner).isMatched
  have jsonItem := (Naming.isPlain_jsonItem owner).isMatched
  have unused : IsMatched (if members.isEmpty then "_" else "") := isMatched_ite rfl rfl
  have literal : IsMatched ("Ok(Self" ++ " \x7b" ++ "\x7d" ++ ")") :=
    isMatched_joined (.fixed _) [.fixed _, .fixed _, .fixed _] rfl
  rw [structMethods]
  simp only [List.forall_mem_cons, List.not_mem_nil, false_imp_iff, implies_true, and_true]
  refine ⟨?builder, ?new, ?fromDecoded, ?toEncodable, ?encodable, ?toJson, ?fromJson, ?encode,
    ?decode⟩
  case builder => exact (Source.isBalanced_line matched).block (isMatched_ofList rfl)
  case new =>
    refine Source.IsBalanced.block ?_ (isMatched_joined (.fixed _)
      [.filled unused, .fixed _, .filled fieldsItem, .fixed _] rfl)
    refine (isBalanced_initialLines named fun m each => ?_).block rfl
    exact isMatched_initializer each.type
      (isMatched_joined (.fixed _) [.filled each.ident.isMatched] rfl)
  case fromDecoded =>
    refine Source.IsBalanced.block (.append ?_ ?_) (isMatched_ofList rfl)
    · split
      · exact Source.isBalanced_line (isMatched_ofList rfl)
      · exact Source.isBalanced_nil
    · exact (isBalanced_initialLines named fun m each =>
        isMatched_fieldReader rfl each.name each.type).enclosed literal
  case toEncodable =>
    exact isBalanced_structConverter (isMatched_joined (.fixed _)
      [.filled unused, .fixed _, .filled fieldsItem, .fixed _] rfl) rfl named
  case encodable => exact isBalanced_structConverter (isMatched_ofList rfl) rfl named
  case toJson =>
    refine Source.IsBalanced.block ?_ (isMatched_joined (.fixed _) [.filled jsonItem] rfl)
    refine (isBalanced_initialLines named fun m each => ?_).block jsonItem
    exact isMatched_jsonWriter each.type
      (isMatched_joined (.fixed _) [.filled each.ident.isMatched] rfl)
  case fromJson =>
    refine Source.IsBalanced.block ?_ (isMatched_joined (.fixed _)
      [.filled unused, .fixed _, .filled jsonItem, .fixed _] rfl)
    refine (isBalanced_initialLines named fun m each => ?_).enclosed literal
    exact isMatched_unwrapWithin (isMatched_jsonReader each.type
      (isMatched_joined (.fixed _) [.filled each.ident.isMatched] rfl)) each.name
  case encode =>
    exact (Source.isBalanced_line (isMatched_ofList rfl)).block (isMatched_ofList rfl)
  case decode =>
    exact ((Source.isBalanced_line (isMatched_ofList rfl)).line_cons (isMatched_ofList rfl)).block
      (isMatched_ofList rfl)

theorem isBalanced_structItems {layout : Layout} (owner : IsIdentifier scope.owner)
    (matched : IsMatched layout.builder) (named : ∀ m ∈ members, m.HasIdentifiers) :
    ∀ item ∈ scope.structItems layout members, item.IsBalanced := by
  have ident := (Naming.isPlain_typeIdent owner).isMatched
  have fieldsItem := (Naming.isPlain_fieldsItem owner).isMatched
  have jsonItem := (Naming.isPlain_jsonItem owner).isMatched
  rw [structItems]
  simp only [List.forall_mem_cons, List.not_mem_nil, false_imp_iff, implies_true, and_true]
  refine ⟨?fields, ?json, ?struct, ?methods⟩
  case fields =>
    refine .line_cons (.line_cons ?_ (isMatched_ofList rfl))
      (isMatched_joined (.fixed _) [.filled ident, .fixed _] rfl)
    exact (isBalanced_memberLines named).block
      (isMatched_joined (.fixed _) [.filled fieldsItem] rfl)
  case json =>
    refine .line_cons ?_ (isMatched_ofList rfl)
    exact (isBalanced_jsonMemberLines named).block
      (isMatched_joined (.fixed _) [.filled jsonItem] rfl)
  case struct =>
    refine .line_cons ?_ (isMatched_ofList rfl)
    exact (isBalanced_memberLines named).block (isMatched_joined (.fixed _) [.filled ident] rfl)
  case methods =>
    exact (Source.isBalanced_spaced (isBalanced_structMethods owner matched named)).block
      (isMatched_joined (.fixed _) [.filled ident] rfl)

end Scope

end WireSchema
