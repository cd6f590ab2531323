import WireSchema.Proofs.Schema.Reachability
import WireSchema.Proofs.Schema.WellFormed
import WireSchema.Rendering.TypeText

/-! Emitted types and what their values hold in place, with neither a vector nor a box between.
Boxes stand where references close a cycle, and a cycle without an option has been refused with
the schema; hence no emitted type holds itself. -/

namespace WireSchema

open Relation

/-! ## The syntax of emitted types -/

/-- The types of emitted modules: for a struct the record of its fields and the struct built from
it, for an enum the union over its variants, and for both the form in JSON. -/
inductive EmittedItem where
  | fields (name : String)
  | built (name : String)
  | kind (name : String)
  | json (name : String)
  deriving DecidableEq, Repr

namespace EmittedItem

def owner : EmittedItem → String
  | fields name | built name | kind name | json name => name

def ident : EmittedItem → String
  | fields name => Naming.fieldsItem name
  | built name => Naming.typeIdent name
  | kind name => Naming.kindItem name
  | json name => Naming.jsonItem name

end EmittedItem

inductive EmittedType where
  /-- A type without items in it. -/
  | plain (text : String)
  | reference (item : EmittedItem)
  | array (item : EmittedType) (length : Nat)
  | option (item : EmittedType)
  | pair (first second : EmittedType)
  | vec (item : EmittedType)
  | box (item : EmittedType)
  deriving Repr

namespace EmittedType

def text (scope : Scope) : EmittedType → String
  | plain text => text
  | reference item => scope.itemPath item.owner item.ident
  | array item length => s!"[{item.text scope}; {length}]"
  | option item => s!"Option<{item.text scope}>"
  | pair first second => s!"({first.text scope}, {second.text scope})"
  | vec item => s!"Vec<{item.text scope}>"
  | box item => s!"Box<{item.text scope}>"

/-- The values of a type have those of an item in place. What is in a vector or a box lies
elsewhere. -/
inductive Holds : EmittedType → EmittedItem → Prop where
  | reference (item : EmittedItem) : Holds (.reference item) item
  | array : Holds type item → Holds (.array type length) item
  | option : Holds type item → Holds (.option type) item
  | first : Holds first item → Holds (.pair first second) item
  | second : Holds second item → Holds (.pair first second) item

end EmittedType

namespace Scope

def valueItem (scope : Scope) (form : ValueForm) (name : String) : EmittedItem :=
  match scope.kindOf name, form with
  | .struct, .fields => .fields name
  | .struct, .built => .built name
  | .enum, _ => .kind name

def boxed (scope : Scope) (type : FieldType) (item : EmittedType) : EmittedType :=
  if scope.needsBox type then .box item else item

def valueSyntax (scope : Scope) (form : ValueForm) : FieldType → EmittedType
  | .primitive p => .plain p.typeText
  | .vec item => .vec (scope.valueSyntax form item)
  | .array item length => .array (scope.valueSyntax form item) length
  | .option item => .option (scope.boxed item (scope.valueSyntax form item))
  | .hashMap key value => .vec (.pair (scope.valueSyntax form key) (scope.valueSyntax form value))
  | .defined name => .reference (scope.valueItem form name)

def jsonSyntax (scope : Scope) : FieldType → EmittedType
  | .primitive p => .plain p.jsonTypeText
  | .vec item | .array item _ => .vec (scope.jsonSyntax item)
  | .option item => .option (scope.boxed item (scope.jsonSyntax item))
  | .hashMap key value => .vec (.pair (scope.jsonSyntax key) (scope.jsonSyntax value))
  | .defined name => .reference (.json name)

variable {scope : Scope}

theorem text_boxed (type : FieldType) (item : EmittedType) :
    (EmittedType.option (scope.boxed type item)).text scope =
      optionText (scope.needsBox type) (item.text scope) := by
  unfold boxed optionText
  by_cases closes : scope.needsBox type = true
  · simp only [if_pos closes, EmittedType.text]
    exact String.toList_inj.1 (by simp [toString])
  · simp only [if_neg closes, EmittedType.text]

theorem text_valueSyntax (form : ValueForm) (type : FieldType) :
    (scope.valueSyntax form type).text scope = scope.valueType form type := by
  induction type with
  | primitive p => rfl
  | vec item ih => exact congrArg (fun text => s!"Vec<{text}>") ih
  | array item length ih => exact congrArg (fun text => s!"[{text}; {length}]") ih
  | option item ih =>
    exact (text_boxed item _).trans (congrArg (optionText (scope.needsBox item)) ih)
  | hashMap key value ihKey ihValue =>
    have pair : ((scope.valueSyntax form key).pair (scope.valueSyntax form value)).text scope =
        s!"({scope.valueType form key}, {scope.valueType form value})" := by
      rw [EmittedType.text, ihKey, ihValue]
    show _ = s!"Vec<({scope.valueType form key}, {scope.valueType form value})>"
    refine (congrArg (fun text => s!"Vec<{text}>") pair).trans ?_
    exact String.toList_inj.1 (by simp [toString])
  | defined name =>
    show scope.itemPath (scope.valueItem form name).owner (scope.valueItem form name).ident =
      scope.itemPath name _
    unfold valueItem
    cases scope.kindOf name <;> cases form <;> rfl

theorem text_jsonSyntax (type : FieldType) :
    (scope.jsonSyntax type).text scope = scope.jsonType type := by
  induction type with
  | primitive p => rfl
  | vec item ih => simp only [jsonSyntax, jsonType, EmittedType.text, ih]
  | array item length ih => simp only [jsonSyntax, jsonType, EmittedType.text, ih]
  | option item ih => rw [jsonSyntax, text_boxed, jsonType, ih]
  | hashMap key value ihKey ihValue =>
    simp only [jsonSyntax, jsonType, EmittedType.text, ihKey, ihValue]
    exact String.toList_inj.1 (by simp [toString])
  | defined name => rfl

/-! ## In place -/

/-- A type reaches a definition through fixed arrays and options without a box. -/
inductive Inlines (scope : Scope) : FieldType → String → Prop where
  | defined (name : String) : Inlines scope (.defined name) name
  | array : Inlines scope item name → Inlines scope (.array item length) name
  | option : scope.needsBox item = false → Inlines scope item name →
    Inlines scope (.option item) name

theorem Inlines.mentions {type : FieldType} {name : String} (inlines : scope.Inlines type name) :
    type.Mentions name := by
  induction inlines with
  | defined name => exact .defined name
  | array _ ih => exact .array ih
  | option _ _ ih => exact .option ih

/-- On the way to a name that closes a cycle the innermost option would have a box, and so there
is none. -/
theorem Inlines.embeds {type : FieldType} {name : String} (inlines : scope.Inlines type name)
    (closes : scope.table.needsIndirection scope.owner name = true) :
    type.Embeds name ∧ scope.needsBox type = true := by
  induction inlines with
  | defined name => exact ⟨.defined name, closes⟩
  | array _ ih =>
    obtain ⟨embeds, boxed⟩ := ih closes
    exact ⟨.array embeds, boxed⟩
  | option plain _ ih =>
    obtain ⟨-, boxed⟩ := ih closes
    rw [plain] at boxed
    cases boxed

theorem owner_valueItem (form : ValueForm) (name : String) :
    (scope.valueItem form name).owner = name := by
  unfold valueItem
  split
  next => rfl
  next => rfl
  next => rfl

theorem holds_boxed {type : FieldType} {inner : EmittedType} {item : EmittedItem}
    (holds : (EmittedType.option (scope.boxed type inner)).Holds item) :
    scope.needsBox type = false ∧ inner.Holds item := by
  cases holds with
  | option inside =>
    unfold boxed at inside
    split at inside
    next => cases inside
    next plain => exact ⟨eq_false_of_ne_true plain, inside⟩

theorem inlines_of_valueSyntax {form : ValueForm} {type : FieldType} {item : EmittedItem}
    (holds : (scope.valueSyntax form type).Holds item) : scope.Inlines type item.owner := by
  induction type with
  | primitive p => cases holds
  | vec inner ih => cases holds
  | array inner length ih =>
    cases holds with
    | array inside => exact .array (ih inside)
  | option inner ih =>
    obtain ⟨plain, inside⟩ := holds_boxed holds
    exact .option plain (ih inside)
  | hashMap key value ihKey ihValue => cases holds
  | defined name =>
    cases holds with
    | reference =>
      rw [owner_valueItem]
      exact .defined name

theorem inlines_of_jsonSyntax {type : FieldType} {item : EmittedItem}
    (holds : (scope.jsonSyntax type).Holds item) : scope.Inlines type item.owner := by
  induction type with
  | option inner ih =>
    obtain ⟨plain, inside⟩ := holds_boxed holds
    exact .option plain (ih inside)
  | defined name =>
    cases holds with
    | reference => exact .defined name
  | _ => cases holds

end Scope

/-- Where every step of a cycle is also one of another relation, the other one has the cycle. -/
theorem transGen_of_cycle {α : Type} {r s : α → α → Prop}
    (steps : ∀ a b, r a b → ReflTransGen r b a → s a b) {a : α} (cycle : TransGen r a a) :
    TransGen s a a := by
  have onward : ∀ b, TransGen r a b → ReflTransGen r b a → TransGen s a b := by
    intro b walk
    induction walk with
    | single step => exact fun back => .single (steps _ _ step back)
    | tail before step ih =>
      intro back
      exact (ih (.head step back)).tail (steps _ _ step (back.trans before.to_reflTransGen))
  exact onward a cycle .refl

namespace EmittedItem

def partText (table : Table) (item : EmittedItem) (part : FieldType) : String :=
  match item with
  | fields name => Scope.valueType ⟨table, name⟩ .fields part
  | built name | kind name => Scope.valueType ⟨table, name⟩ .built part
  | json name => Scope.jsonType ⟨table, name⟩ part

def partSyntax (table : Table) (item : EmittedItem) (part : FieldType) : EmittedType :=
  match item with
  | fields name => Scope.valueSyntax ⟨table, name⟩ .fields part
  | built name | kind name => Scope.valueSyntax ⟨table, name⟩ .built part
  | json name => Scope.jsonSyntax ⟨table, name⟩ part

theorem text_partSyntax (table : Table) (item : EmittedItem) (part : FieldType) :
    (item.partSyntax table part).text ⟨table, item.owner⟩ = item.partText table part := by
  cases item with
  | fields name => exact Scope.text_valueSyntax .fields part
  | built name => exact Scope.text_valueSyntax .built part
  | kind name => exact Scope.text_valueSyntax .built part
  | json name => exact Scope.text_jsonSyntax part

end EmittedItem

namespace Table

def ContainsInline (table : Table) (owner name : String) : Prop :=
  ∃ type ∈ table.types, type.name = owner ∧
    ∃ part, type.body.HasPart part ∧ Scope.Inlines ⟨table, owner⟩ part name

def HoldsItem (table : Table) (outer inner : EmittedItem) : Prop :=
  ∃ type ∈ table.types, type.name = outer.owner ∧
    ∃ part, type.body.HasPart part ∧ (outer.partSyntax table part).Holds inner

variable {table : Table}

theorem containsInline_of_holdsItem {outer inner : EmittedItem}
    (holds : table.HoldsItem outer inner) : table.ContainsInline outer.owner inner.owner := by
  obtain ⟨type, member, named, part, inside, held⟩ := holds
  refine ⟨type, member, named, part, inside, ?_⟩
  cases outer with
  | fields name => exact Scope.inlines_of_valueSyntax held
  | built name => exact Scope.inlines_of_valueSyntax held
  | kind name => exact Scope.inlines_of_valueSyntax held
  | json name => exact Scope.inlines_of_jsonSyntax held

theorem HasNames.refers_of_containsInline (names : table.HasNames) {owner name : String}
    (contains : table.ContainsInline owner name) : table.Refers owner name := by
  obtain ⟨type, member, named, part, inside, inlines⟩ := contains
  have reference := TypeBody.mem_references.2 ⟨part, inside, inlines.mentions⟩
  exact names.mem_namesOf_iff.2 ⟨type, member, named, reference⟩

/-- A step of a cycle goes without options, because its end leads back to its start. -/
theorem HasNames.encloses_of_cycle (names : table.HasNames) {owner name : String}
    (contains : table.ContainsInline owner name)
    (back : ReflTransGen table.ContainsInline name owner) :
    Encloses table.types owner name := by
  have closes : table.needsIndirection owner name = true := by
    unfold needsIndirection
    rcases reflTransGen_iff_eq_or_transGen.1 back with same | chain
    · simp [same]
    · have refers : TransGen table.Refers name owner :=
        TransGen.mono (fun _ _ => names.refers_of_containsInline) _ _ chain
      simp [reaches_iff.2 refers]
  obtain ⟨type, member, named, part, inside, inlines⟩ := contains
  exact ⟨type, member, named, part, inside, (inlines.embeds closes).1⟩

/-- No definition of a checked table has itself in place, over however many others. The types in
the declarations of emitted items have a syntax that spells them, and by it no item holds itself
outside of vectors and boxes. -/
theorem inline_acyclic {types : List TypeDef} (accepted : ofTypes types = .ok table) :
    (∀ name, ¬TransGen table.ContainsInline name name) ∧
      (∀ item part, (EmittedItem.partSyntax table item part).text ⟨table, item.owner⟩ =
        EmittedItem.partText table item part) ∧
      ∀ item, ¬TransGen table.HoldsItem item item := by
  obtain ⟨rfl, names, -, acyclic⟩ := ofTypes_eq_ok_iff_checks.1 accepted
  have definitions : ∀ name, ¬TransGen (Table.mk types).ContainsInline name name := by
    intro name cycle
    exact (isAcyclic_iff names).1 acyclic name
      (transGen_of_cycle (fun _ _ => names.encloses_of_cycle) cycle)
  refine ⟨definitions, EmittedItem.text_partSyntax _, fun item cycle => ?_⟩
  exact definitions item.owner
    (TransGen.lift EmittedItem.owner (fun _ _ => containsInline_of_holdsItem) _ _ cycle)

def knots : List TypeDef :=
  [⟨"Node", .struct [⟨"edge", .defined "Edge"⟩,
    ⟨"others", .option (.array (.option (.defined "Node")) 2)⟩]⟩,
   ⟨"Edge", .enum [⟨"Loose", .empty⟩,
    ⟨"Tied", .tuple [.option (.defined "Node"), .vec (.defined "Edge")]⟩]⟩]

theorem inline_acyclic_knots :
    ofTypes knots = .ok ⟨knots⟩ ∧ (Table.mk knots).ContainsInline "Node" "Edge" ∧
      ¬TransGen (Table.mk knots).ContainsInline "Node" "Node" ∧
      (EmittedItem.partText ⟨knots⟩ (.built "Node")
        (.option (.array (.option (.defined "Node")) 2)) = "Option<[Option<Box<Node>>; 2]>") ∧
      ¬TransGen (Table.mk knots).HoldsItem (.kind "Edge") (.kind "Edge") := by
  have accepted : ofTypes knots = .ok ⟨knots⟩ := by decide
  obtain ⟨definitions, spelled, items⟩ := inline_acyclic accepted
  refine ⟨accepted, ?_, definitions "Node", ?_, items (.kind "Edge")⟩
  · exact ⟨_, .head _, rfl, _, .field (.struct _) (.head _), .defined "Edge"⟩
  · exact (spelled _ _).symm.trans (by decide)

end Table

end WireSchema
