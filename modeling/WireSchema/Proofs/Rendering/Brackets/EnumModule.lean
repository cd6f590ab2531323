import WireSchema.Proofs.Rendering.Brackets.StructModule
import WireSchema.Rendering.EnumModule

/-! Brackets of the module of an enum. The literal of a variant is the only part that is left open,
for the text behind it to close. -/

namespace WireSchema.Scope

open Brackets

variable {scope : Scope} {variant : MemberVariant} {variants : List MemberVariant}

/-! ## Tuples -/

theorem forall_mem_tupleElements {types : List FieldType} {expression : Nat → FieldType → String}
    (matched : ∀ position, ∀ type ∈ types, IsMatched (expression position type)) :
    ∀ element ∈ tupleElements types expression, IsMatched element := by
  intro element member
  obtain ⟨position, bound, rfl⟩ := List.mem_mapIdx.1 member
  exact matched position _ (List.getElem_mem bound)

theorem isMatched_tupleText {elements : List String}
    (matched : ∀ element ∈ elements, IsMatched element) : IsMatched (tupleText elements) :=
  isMatched_intercalate rfl (List.forall_mem_map.2 fun element member =>
    isMatched_append (matched element member) rfl)

theorem isPlain_tupleKey (position : Nat) : IsPlain (tupleKey position) :=
  isPlain_of_isIdentifier (isIdentifier_iff.1 (isIdentifier_tupleKey position))

theorem isMatched_tupleBinding (position : Nat) : IsMatched (tupleBinding position) :=
  isMatched_append rfl (isPlain_toString position).isMatched

/-! ## Variant types -/

theorem isMatched_position (position : Nat) : IsMatched s!"&self.{position}" :=
  isMatched_append rfl (isPlain_toString position).isMatched

theorem isBalanced_variantType (named : variant.HasIdentifiers) :
    (scope.variantType variant).IsBalanced := by
  have ident := named.ident.isMatched
  have shape := named.shape
  refine .line_cons ?_ (isMatched_ofList rfl)
  split
  next =>
    exact Source.isBalanced_line (isMatched_joined (.fixed _) [.filled ident, .fixed _] rfl)
  next members same =>
    rw [same] at shape
    exact (isBalanced_memberLines shape).block (isMatched_joined (.fixed _) [.filled ident] rfl)
  next types same =>
    rw [same] at shape
    have items : IsMatched (", ".intercalate
        (types.map fun type => "pub " ++ scope.valueType .built type)) :=
      isMatched_intercalate rfl (List.forall_mem_map.2 fun type member =>
        isMatched_append rfl (isMatched_valueType (shape type member)))
    exact Source.isBalanced_line (isMatched_joined (.fixed _)
      [.filled ident, .fixed _, .filled items, .fixed _] rfl)

theorem isBalanced_variantToJson (owner : IsIdentifier scope.owner)
    (named : variant.HasIdentifiers) : (scope.variantToJson variant).IsBalanced := by
  have jsonItem := (Naming.isPlain_jsonItem owner).isMatched
  have target : IsMatched s!"{Naming.jsonItem scope.owner}::{variant.ident}" :=
    isMatched_joined (.filled jsonItem) [.fixed _, .filled named.ident.isMatched] rfl
  have shape := named.shape
  refine Source.IsBalanced.block ?_ (isMatched_joined (.fixed _) [.filled jsonItem] rfl)
  split
  next => exact Source.isBalanced_line target
  next members same =>
    rw [same] at shape
    refine (isBalanced_initialLines shape fun m each => ?_).block target
    exact isMatched_jsonWriter each.type
      (isMatched_joined (.fixed _) [.filled each.ident.isMatched] rfl)
  next types same =>
    rw [same] at shape
    have items : IsMatched (tupleText (tupleElements types fun position type =>
        scope.jsonWriter type s!"&self.{position}")) :=
      isMatched_tupleText (forall_mem_tupleElements fun position type member =>
        isMatched_jsonWriter (shape type member) (isMatched_position position))
    exact Source.isBalanced_line (isMatched_joined (.filled target)
      [.fixed _, .filled items, .fixed _] rfl)

theorem isBalanced_variantToTree (named : variant.HasIdentifiers) :
    (scope.variantToTree variant).IsBalanced := by
  have shape := named.shape
  have written {entries : Source} (balanced : entries.IsBalanced) : Source.IsBalanced
      (Source.continued "Decoded::variant_of(Self::KIND, Decoded::structure([" "]))" entries) :=
    balanced.continued (isMatched_joined (.fixed _) [.fixed _] rfl)
  refine Source.IsBalanced.block ?_ (isMatched_ofList rfl)
  split
  next => exact Source.isBalanced_line (isMatched_ofList rfl)
  next members same =>
    rw [same] at shape
    refine written (isBalanced_entryLines shape fun m each => ?_)
    exact isMatched_treeWriter each.type
      (isMatched_joined (.fixed _) [.filled each.ident.isMatched] rfl)
  next types same =>
    rw [same] at shape
    refine written (Source.isBalanced_of_forall fun step member => ?_)
    obtain ⟨position, bound, rfl⟩ := List.mem_mapIdx.1 member
    have writer : IsMatched (scope.treeWriter .built types[position] s!"&self.{position}") :=
      isMatched_treeWriter (shape _ (List.getElem_mem bound)) (isMatched_position position)
    have key := isMatched_quote (isPlain_tupleKey position)
    exact Source.isBalanced_line (isMatched_joined (.fixed _)
      [.filled key, .fixed _, .filled writer, .fixed _] rfl)

theorem isBalanced_variantItems (owner : IsIdentifier scope.owner)
    (named : variant.HasIdentifiers) : ∀ item ∈ scope.variantItems variant, item.IsBalanced := by
  rw [variantItems]
  simp only [List.forall_mem_cons, List.not_mem_nil, false_imp_iff, implies_true, and_true]
  refine ⟨isBalanced_variantType named, ?methods⟩
  refine (Source.isBalanced_spaced ?_).block
    (isMatched_joined (.fixed _) [.filled named.ident.isMatched] rfl)
  simp only [List.forall_mem_cons, List.not_mem_nil, false_imp_iff, implies_true, and_true]
  refine ⟨?constants, isBalanced_variantToJson owner named, isBalanced_variantToTree named⟩
  have digits := (isPlain_toString variant.position).isMatched
  refine (Source.isBalanced_line ?kind).line_cons ?discriminator
  case discriminator => exact isMatched_joined (.fixed _) [.filled digits, .fixed _] rfl
  case kind =>
    exact isMatched_joined (.fixed _) [.filled (isMatched_quote named.name), .fixed _] rfl

/-! ## The union over the variants -/

theorem isBalanced_dispatch {arm : String → String} (named : ∀ v ∈ variants, v.HasIdentifiers)
    (matched : ∀ ident, IsMatched ident → IsMatched (arm ident)) :
    (dispatch variants arm).IsBalanced := by
  unfold dispatch
  split
  · exact Source.isBalanced_line (isMatched_ofList rfl)
  · exact (Source.isBalanced_map_line fun v member =>
      matched v.ident (named v member).ident.isMatched).block (isMatched_ofList rfl)

theorem isBalanced_unionMethods (owner : IsIdentifier scope.owner)
    (named : ∀ v ∈ variants, v.HasIdentifiers) :
    ∀ method ∈ scope.unionMethods variants, method.IsBalanced := by
  have kindItem := (Naming.isPlain_kindItem owner).isMatched
  have jsonItem := (Naming.isPlain_jsonItem owner).isMatched
  rw [unionMethods]
  simp only [List.forall_mem_cons, List.not_mem_nil, false_imp_iff, implies_true, and_true]
  refine ⟨?discriminator, ?kind, ?toJson, ?toEncodable, ?encode, ?decode⟩
  case discriminator | kind =>
    refine (isBalanced_dispatch named fun ident matched => ?_).block (isMatched_ofList rfl)
    exact isMatched_joined (.filled kindItem)
      [.fixed _, .filled matched, .fixed _, .filled matched, .fixed _] rfl
  case toJson =>
    refine (isBalanced_dispatch named fun ident matched => ?_).block
      (isMatched_joined (.fixed _) [.filled jsonItem] rfl)
    exact isMatched_joined (.filled kindItem) [.fixed _, .filled matched, .fixed _] rfl
  case toEncodable =>
    refine (isBalanced_dispatch named fun ident matched => ?_).block (isMatched_ofList rfl)
    exact isMatched_joined (.filled kindItem) [.fixed _, .filled matched, .fixed _] rfl
  case encode =>
    exact (Source.isBalanced_line (isMatched_ofList rfl)).block (isMatched_ofList rfl)
  case decode =>
    exact ((Source.isBalanced_line (isMatched_ofList rfl)).line_cons (isMatched_ofList rfl)).block
      (isMatched_ofList rfl)

/-! ## JSON -/

theorem isBalanced_jsonVariant (named : variant.HasIdentifiers) :
    (scope.jsonVariant variant).IsBalanced := by
  have ident := named.ident.isMatched
  have shape := named.shape
  refine (isBalanced_renameLines named.name).append ?_
  split
  next => exact Source.isBalanced_line (isMatched_joined (.filled ident) [.fixed _] rfl)
  next members same =>
    rw [same] at shape
    refine (Source.isBalanced_flatMap fun m inside => ?_).enclosed
      (isMatched_joined (.filled ident) [.fixed _, .fixed _, .fixed _] rfl)
    have each := shape m inside
    exact (isBalanced_renameLines each.name).append <| Source.isBalanced_line <|
      isMatched_joined (.filled each.ident.isMatched)
        [.fixed _, .filled (isMatched_jsonType each.type), .fixed _] rfl
  next types same =>
    rw [same] at shape
    have items : IsMatched (tupleText (types.map scope.jsonType)) :=
      isMatched_tupleText (List.forall_mem_map.2 fun type member =>
        isMatched_jsonType (shape type member))
    exact Source.isBalanced_line (isMatched_joined (.filled ident)
      [.fixed _, .filled items, .fixed _] rfl)

theorem isBalanced_jsonUnion (owner : IsIdentifier scope.owner)
    (named : ∀ v ∈ variants, v.HasIdentifiers) : (scope.jsonUnion variants).IsBalanced := by
  have jsonItem := (Naming.isPlain_jsonItem owner).isMatched
  refine Source.IsBalanced.line_cons (.append ?_ ?_) (isMatched_ofList rfl)
  · split
    · exact Source.isBalanced_nil
    · exact Source.isBalanced_line (isMatched_ofList rfl)
  · exact (Source.isBalanced_flatMap fun v member => isBalanced_jsonVariant (named v member)).block
      (isMatched_joined (.fixed _) [.filled jsonItem] rfl)

/-! ## Converters -/

/-- The literal opens a parenthesis for the value of the variant. -/
theorem run_unionLiteral (owner : IsIdentifier scope.owner) (named : variant.HasIdentifiers) :
    run (scope.unionLiteral variant).toList = run ['('] := by
  have kindItem := (Naming.isPlain_kindItem owner).isMatched
  have ident := named.ident.isMatched
  exact (run_joined (.filled kindItem)
    [.fixed _, .filled ident, .fixed _, .filled ident]).trans rfl

theorem isBalanced_variantFromTree (owner : IsIdentifier scope.owner)
    (named : variant.HasIdentifiers) : (scope.variantFromTree variant).IsBalanced := by
  have name := isMatched_quote named.name
  have literal := run_unionLiteral owner named
  have shape := named.shape
  refine Source.IsBalanced.block ?_ (isMatched_joined (.fixed _) [.filled name, .fixed _] rfl)
  split
  next =>
    refine (Source.isBalanced_line ?_).line_cons
      (isMatched_joined (.fixed _) [.filled name, .fixed _] rfl)
    exact isMatched_joined (.fixed _) [.alike literal, .fixed _] rfl
  next members same =>
    rw [same] at shape
    exact (isBalanced_initialLines shape fun m each =>
      isMatched_fieldReader rfl each.name each.type).enclosed
        (isMatched_joined (.fixed _) [.alike literal, .fixed _, .fixed _, .fixed _] rfl)
  next types same =>
    rw [same] at shape
    have items : IsMatched (", ".intercalate (tupleElements types fun position type =>
        scope.fieldReader "val" (tupleKey position) type)) :=
      isMatched_intercalate rfl (forall_mem_tupleElements fun position type member =>
        isMatched_fieldReader rfl (isPlain_tupleKey position) (shape type member))
    exact Source.isBalanced_line (isMatched_joined (.fixed _)
      [.alike literal, .fixed _, .filled items, .fixed _] rfl)

theorem isBalanced_enumFromTree (owner : IsIdentifier scope.owner)
    (named : ∀ v ∈ variants, v.HasIdentifiers) : (scope.enumFromTree variants).IsBalanced := by
  have kindItem := (Naming.isPlain_kindItem owner).isMatched
  have name := isMatched_quote (isPlain_of_isIdentifier owner)
  refine Source.IsBalanced.block (.line_cons (.append ?variants ?last) ?first)
    (isMatched_joined (.fixed _) [.filled kindItem, .fixed _] rfl)
  case variants =>
    exact Source.isBalanced_flatMap fun v member =>
      isBalanced_variantFromTree owner (named v member)
  case last =>
    exact Source.isBalanced_line (isMatched_joined (.fixed _) [.filled name, .fixed _] rfl)
  case first => exact isMatched_joined (.fixed _) [.filled name, .fixed _] rfl

theorem isBalanced_variantFromJson (owner : IsIdentifier scope.owner)
    (named : variant.HasIdentifiers) : (scope.variantFromJson variant).IsBalanced := by
  have jsonItem := (Naming.isPlain_jsonItem owner).isMatched
  have source : IsMatched s!"{Naming.jsonItem scope.owner}::{variant.ident}" :=
    isMatched_joined (.filled jsonItem) [.fixed _, .filled named.ident.isMatched] rfl
  have literal := run_unionLiteral owner named
  have shape := named.shape
  have segment {name : String} (plain : IsPlain name) : IsPlain s!"{variant.name}.{name}" :=
    isPlain_append.2 ⟨isPlain_append.2 ⟨named.name, isPlain_of_all rfl⟩, plain⟩
  unfold variantFromJson
  split
  next =>
    exact Source.isBalanced_line (isMatched_joined (.filled source)
      [.fixed _, .alike literal, .fixed _] rfl)
  next members same =>
    rw [same] at shape
    have bindings : IsMatched (", ".intercalate (members.map Member.ident)) :=
      isMatched_intercalate rfl (List.forall_mem_map.2 fun m member =>
        (shape m member).ident.isMatched)
    refine (isBalanced_initialLines shape fun m each => ?_).enclosed (isMatched_joined
      (.filled source) [.fixed _, .filled bindings, .fixed _, .alike literal, .fixed _, .fixed _,
        .fixed _] rfl)
    exact isMatched_unwrapWithin (isMatched_jsonReader each.type each.ident.isMatched)
      (segment each.name)
  next types same =>
    rw [same] at shape
    have bindings : IsMatched
        (", ".intercalate (tupleElements types fun position _ => tupleBinding position)) :=
      isMatched_intercalate rfl (forall_mem_tupleElements fun position _ _ =>
        isMatched_tupleBinding position)
    have comma : IsMatched (if types.length = 1 then "," else "") := isMatched_ite rfl rfl
    have items : IsMatched (", ".intercalate (tupleElements types fun position type =>
        (scope.jsonReader type (tupleBinding position)).unwrapWithin
          s!"{variant.name}.{tupleKey position}")) :=
      isMatched_intercalate rfl (forall_mem_tupleElements fun position type member =>
        isMatched_unwrapWithin (isMatched_jsonReader (shape type member)
          (isMatched_tupleBinding position)) (segment (isPlain_tupleKey position)))
    exact Source.isBalanced_line (isMatched_joined (.filled source) [.fixed _, .filled bindings,
      .filled comma, .fixed _, .alike literal, .fixed _, .filled items, .fixed _] rfl)

theorem isBalanced_enumFromJson (owner : IsIdentifier scope.owner)
    (named : ∀ v ∈ variants, v.HasIdentifiers) : (scope.enumFromJson variants).IsBalanced := by
  have kindItem := (Naming.isPlain_kindItem owner).isMatched
  have jsonItem := (Naming.isPlain_jsonItem owner).isMatched
  have signature {unused : String} (matched : IsMatched unused) :
      IsMatched s!"pub fn from_json({unused}obj: &{Naming.jsonItem scope.owner})" :=
    isMatched_joined (.fixed _) [.filled matched, .fixed _, .filled jsonItem, .fixed _] rfl
  refine Source.IsBalanced.block ?_ (isMatched_joined (.filled (signature (isMatched_ite rfl rfl)))
    [.fixed _, .filled kindItem, .fixed _] rfl)
  split
  · exact Source.isBalanced_line (isMatched_ofList rfl)
  · exact (Source.isBalanced_flatMap fun v member =>
      isBalanced_variantFromJson owner (named v member)).enclosed
        (isMatched_joined (.fixed _) [.fixed _, .fixed _, .fixed _] rfl)

theorem isBalanced_enumItems {layout : Layout} (owner : IsIdentifier scope.owner)
    (matched : IsMatched layout.builder) (named : ∀ v ∈ variants, v.HasIdentifiers) :
    ∀ item ∈ scope.enumItems layout variants, item.IsBalanced := by
  have kindItem := (Naming.isPlain_kindItem owner).isMatched
  refine List.forall_mem_append.2 ⟨?variants, ?_⟩
  case variants =>
    intro item inside
    obtain ⟨v, member, among⟩ := List.mem_flatMap.1 inside
    exact isBalanced_variantItems owner (named v member) item among
  simp only [List.forall_mem_cons, List.not_mem_nil, false_imp_iff, implies_true, and_true]
  refine ⟨?union, ?methods, isBalanced_jsonUnion owner named, ?builder,
    isBalanced_enumFromTree owner named, isBalanced_enumFromJson owner named⟩
  case union =>
    refine .line_cons ?_ (isMatched_ofList rfl)
    refine (Source.isBalanced_map_line fun v member => ?_).block
      (isMatched_joined (.fixed _) [.filled kindItem] rfl)
    have ident := (named v member).ident.isMatched
    exact isMatched_joined (.filled ident) [.fixed _, .filled ident, .fixed _] rfl
  case methods =>
    exact (Source.isBalanced_spaced (isBalanced_unionMethods owner named)).block
      (isMatched_joined (.fixed _) [.filled kindItem] rfl)
  case builder => exact (Source.isBalanced_line matched).block (isMatched_ofList rfl)

end WireSchema.Scope
