import Mathlib.Data.List.TakeWhile
import WireSchema.Proofs.Rendering.Namespace
import WireSchema.Proofs.Rendering.Package
import WireSchema.Proofs.Source.Lines
import WireSchema.Proofs.Text.Blank
import WireSchema.Proofs.Text.Quoted

/-! The text that has the modules of a package in the place of their declarations. An index has no
other lines that begin as declarations do, and neither has a module once it is indented. -/

namespace WireSchema

open Outcome

namespace Source

/-! ## Lines beside declarations -/

def declares (line : String) : Bool :=
  "pub mod ".toList.isPrefixOf line.toList

/-- Something on one line that declares no module, without a carriage return at its end. -/
structure IsAside (line : String) : Prop where
  single : '\n' ∉ line.toList
  bare : line.toList.reverse.head? ≠ some '\r'
  silent : declares line = false

instance (line : String) : Decidable (IsAside line) :=
  decidable_of_iff
    ('\n' ∉ line.toList ∧ line.toList.reverse.head? ≠ some '\r' ∧ declares line = false)
    ⟨fun ⟨single, bare, silent⟩ => ⟨single, bare, silent⟩,
      fun aside => ⟨aside.single, aside.bare, aside.silent⟩⟩

theorem bare_append {front back : String} (filled : back ≠ "")
    (bare : back.toList.reverse.head? ≠ some '\r') :
    (front ++ back).toList.reverse.head? ≠ some '\r' := by
  have some : back.toList.reverse ≠ [] := by
    rw [Ne, List.reverse_eq_nil_iff, String.toList_eq_nil_iff]
    exact filled
  rw [String.toList_append, List.reverse_append, List.head?_append_of_ne_nil _ some]
  exact bare

/-- A line is an aside by how it starts and ends, if it goes on in between without a break. -/
theorem isAside_enclosed {front inner back : String}
    (silent : ∀ rest, "pub mod ".toList.isPrefixOf (front.toList ++ rest) = false)
    (clear : '\n' ∉ front.toList ∧ '\n' ∉ inner.toList ∧ '\n' ∉ back.toList)
    (bare : back ≠ "" ∧ back.toList.reverse.head? ≠ some '\r') :
    IsAside (front ++ (inner ++ back)) where
  single := by simpa only [String.toList_append, List.mem_append, not_or] using clear
  bare := by
    rw [← String.append_assoc]
    exact bare_append bare.1 bare.2
  silent := by rw [declares, String.toList_append, silent]

theorem declares_indented (line : String) : declares (indented 1 line) = false := by
  rw [indented]
  split
  · rfl
  · rw [declares, String.toList_append]
    rfl

theorem IsAside.indented {line : String} (aside : IsAside line) (depth : Nat) :
    IsAside (indented depth line) where
  single := notMem_indented aside.single
  bare := by
    rw [Source.indented]
    split
    · decide
    next filled => exact bare_append filled aside.bare
  silent := by
    rw [Source.indented]
    split
    · rfl
    · cases depth with
      | zero =>
        rw [indentation, String.empty_append]
        exact aside.silent
      | succ depth =>
        rw [declares, indentation, String.toList_append, String.toList_append]
        rfl

theorem forall_isAside_linesAt {depth : Nat} {source : Source}
    (asides : ∀ step ∈ source, IsAside step.text) :
    ∀ line ∈ linesAt depth source, IsAside line := by
  induction source generalizing depth with
  | nil => exact fun _ member => by cases member
  | cons step rest ih =>
    obtain ⟨here, below⟩ := List.forall_mem_cons.1 asides
    rw [linesAt, lines_of_notMem here.single, List.map_singleton, List.singleton_append]
    exact List.forall_mem_cons.2 ⟨here.indented _, ih below⟩

theorem forall_mem_spaced {P : Step → Prop} (blank : P .blank) {parts : List Source}
    (each : ∀ part ∈ parts, ∀ step ∈ part, P step) : ∀ step ∈ spaced parts, P step := by
  induction parts with
  | nil => exact fun _ member => by cases member
  | cons part rest ih =>
    obtain ⟨here, below⟩ := List.forall_mem_cons.1 each
    cases rest with
    | nil =>
      rw [spaced, List.intercalate_singleton]
      exact here
    | cons next others =>
      have split : spaced (part :: next :: others) = part ++ .blank :: spaced (next :: others) := by
        simp [spaced]
      rw [split]
      exact List.forall_mem_append.2 ⟨here, List.forall_mem_cons.2 ⟨blank, ih below⟩⟩

end Source

/-! ## Lines of an index -/

namespace Catalog

open Source

theorem notMem_moduleIdent {type : TypeDef} (identifier : IsIdentifier type.name) :
    '\n' ∉ type.moduleIdent.toList := fun member =>
  (Naming.isWord_of_mem_fieldIdent identifier '\n' member).elim (by decide) (by decide)

theorem isAside_exportLine {type : TypeDef} (identifier : IsIdentifier type.name) :
    IsAside (exportLine type).text := by
  have items : '\n' ∉ (", ".intercalate type.exportedItems).toList := fun member =>
    absurd rfl (forall_mem_intercalate (P := (· ≠ '\n')) (by simp)
      (fun item inside c among same => absurd
        (TypeDef.isWord_of_mem_exportedItems identifier item inside c among)
        (same ▸ by decide)) '\n' member)
  have grouped : (exportLine type).text = "pub use " ++
      (type.moduleIdent ++ "::\x7b" ++ ", ".intercalate type.exportedItems ++ "\x7d;") := by
    simp only [exportLine, Step.text, String.append_assoc]
    rfl
  rw [grouped]
  refine isAside_enclosed (fun _ => rfl) ⟨by decide, ?_, by decide⟩ (by decide)
  simp only [String.toList_append, List.mem_append, not_or]
  exact ⟨⟨notMem_moduleIdent identifier, by decide⟩, items⟩

theorem isAside_registryLine {type : TypeDef} (identifier : IsIdentifier type.name) :
    IsAside (registryLine type).text := by
  have module := notMem_moduleIdent identifier
  have ident : '\n' ∉ (Naming.typeIdent type.name).toList := fun member =>
    absurd (Naming.isWord_of_mem_typeIdent identifier '\n' member) (by decide)
  have entry {layout : String} (clear : '\n' ∉ layout.toList) :
      IsAside s!"        ({Quoted.quote type.name}, {layout})," := by
    have grouped : s!"        ({Quoted.quote type.name}, {layout})," =
        "        (" ++ (Quoted.quote type.name ++ ", " ++ layout ++ "),") := by
      simp only [String.append_assoc]
      rfl
    rw [grouped]
    refine isAside_enclosed (fun _ => rfl) ⟨by decide, ?_, by decide⟩ (by decide)
    simp only [String.toList_append, List.mem_append, not_or]
    exact ⟨⟨Quoted.notMem_quote type.name, by decide⟩, clear⟩
  obtain ⟨name, body⟩ := type
  cases body with
  | struct fields =>
    refine entry ?_
    simp only [String.toList_append, List.mem_append, not_or]
    exact ⟨⟨⟨module, by decide⟩, ident⟩, by decide⟩
  | enum variants =>
    refine entry ?_
    simp only [String.toList_append, List.mem_append, not_or]
    exact ⟨module, by decide⟩

theorem isAside_registryLines {types : List TypeDef} {registryPath : String}
    (identifiers : ∀ type ∈ types, IsIdentifier type.name)
    (single : '\n' ∉ registryPath.toList) :
    ∀ step ∈ registryLines types registryPath, IsAside step.text := by
  have opening : IsAside (s!"static REGISTRY: std::sync::LazyLock<{registryPath}> = " ++
      "std::sync::LazyLock::new(|| \x7b") := by
    rw [String.append_assoc, String.append_assoc]
    exact isAside_enclosed (fun _ => rfl) ⟨by decide, single, by decide⟩ (by decide)
  have empty : IsAside s!"    {registryPath}::default()" := by
    rw [String.append_assoc]
    exact isAside_enclosed (fun _ => rfl) ⟨by decide, single, by decide⟩ (by decide)
  refine List.forall_mem_append.2 ⟨List.forall_mem_append.2 ⟨?_, ?_⟩, by decide⟩
  · exact List.forall_mem_singleton.2 opening
  · split
    · exact List.forall_mem_singleton.2 empty
    · refine List.forall_mem_append.2 ⟨List.forall_mem_append.2 ⟨by decide, ?_⟩, by decide⟩
      exact List.forall_mem_map.2 fun type member => isAside_registryLine (identifiers type member)

theorem isAside_access {registryPath : String} (single : '\n' ∉ registryPath.toList) :
    ∀ step ∈ Source.block s!"pub fn registry() -> &'static {registryPath}" [.line "&REGISTRY"],
      IsAside step.text := by
  have opening : IsAside (s!"pub fn registry() -> &'static {registryPath}" ++ " \x7b") := by
    rw [String.append_assoc]
    exact isAside_enclosed (fun _ => rfl) ⟨by decide, single, by decide⟩ (by decide)
  exact List.forall_mem_cons.2 ⟨opening, by decide⟩

/-- Around its declarations, an index has lines that declare nothing. -/
theorem exists_renderIndex {catalog : Catalog} {options : RenderOptions}
    (identifiers : ∀ type ∈ catalog.table.types, IsIdentifier type.name)
    (single : '\n' ∉ options.runtimePath.toList) :
    ∃ before after : Source,
      catalog.renderIndex options = before ++ (catalog.table.types.map fun type =>
        .line (Module.declaration type.moduleIdent)) ++ after ∧
      depthAfter 0 before = 0 ∧
      (∀ step ∈ before, IsAside step.text) ∧ ∀ step ∈ after, IsAside step.text := by
  have path : '\n' ∉ (options.runtimePath ++ "::LayoutRegistry").toList := by
    rw [String.toList_append, List.mem_append, not_or]
    exact ⟨single, by decide⟩
  have blank : IsAside (Step.text .blank) := by decide
  refine ⟨[.line _, .blank], .blank :: spaced [_, _, _], rfl, rfl, by decide, ?_⟩
  refine List.forall_mem_cons.2 ⟨blank, forall_mem_spaced blank ?_⟩
  refine List.forall_mem_cons.2 ⟨?exports, List.forall_mem_cons.2 ⟨?registry,
    List.forall_mem_singleton.2 (List.forall_mem_cons.2 ⟨by decide, isAside_access path⟩)⟩⟩
  case exports =>
    exact List.forall_mem_map.2 fun type member => isAside_exportLine (identifiers type member)
  case registry => exact isAside_registryLines identifiers path

end Catalog

/-! ## Modules in place -/

/-- A text that ends a line with a dark character has only the line break to lose. -/
theorem Package.trimEnd_line (text : String) {c : Char} (last : text.toList.getLast? = some c)
    (dark : Blank.isBlank c = false) : trimEnd (text ++ "\n") = text := by
  have ends : ∀ d ∈ text.toList.getLast?, Blank.isBlank d = false := by
    rw [last]
    rintro d ⟨⟩
    exact dark
  have only : ∀ d ∈ "\n".toList, Blank.isBlank d = true := List.forall_mem_singleton.2 rfl
  rw [trimEnd, String.toList_append, Blank.trimEnd_append only ends, String.ofList_toList]

namespace Module

def opening (ident : String) : String := s!"pub mod {ident} \x7b"

/-- The lines of a module in place: those of its source up to the white space at the end, each that
is not empty behind four spaces. -/
def inlined (module : Module) : List String :=
  opening module.ident ::
    (Source.lines (Package.trimEnd module.source.render)).map (Source.indented 1) ++ ["\x7d"]

def block (module : Module) : Source :=
  Source.block s!"pub mod {module.ident}" [.line (Package.trimEnd module.source.render)]

variable {module : Module}

/-- A block comes back to the depth it starts at. -/
theorem linesAt_block (single : '\n' ∉ module.ident.toList) (rest : Source) :
    Source.linesAt 0 (module.block ++ rest) = module.inlined ++ Source.linesAt 0 rest := by
  have header : '\n' ∉ (opening module.ident).toList := by
    simp only [opening, String.toList_append, List.mem_append, not_or]
    exact ⟨⟨by decide, single⟩, by decide⟩
  have first : Source.lines (s!"pub mod {module.ident}" ++ " \x7b") = [opening module.ident] :=
    (congrArg Source.lines String.append_assoc).trans (Source.lines_of_notMem header)
  have last : Source.lines ("\x7d" ++ "") = ["\x7d"] := by decide
  have steps : module.block ++ rest = .opening s!"pub mod {module.ident}" ::
      .line (Package.trimEnd module.source.render) :: .closing "" :: rest := rfl
  rw [steps, Source.linesAt, Source.linesAt, Source.linesAt, Source.Step.text, Source.Step.text,
    Source.Step.text, first, last, List.map_singleton, List.map_singleton]
  simp only [Source.Step.depthOf, Source.Step.depthAfter, Nat.zero_add, Nat.sub_self,
    Source.indented_zero, inlined, List.cons_append, List.nil_append, List.append_assoc]

theorem linesAt_flatMap_block {modules : List Module}
    (single : ∀ module ∈ modules, '\n' ∉ module.ident.toList) (rest : Source) :
    Source.linesAt 0 (modules.flatMap block ++ rest) =
      modules.flatMap inlined ++ Source.linesAt 0 rest := by
  induction modules with
  | nil => rfl
  | cons module others ih =>
    obtain ⟨here, below⟩ := List.forall_mem_cons.1 single
    rw [List.flatMap_cons, List.append_assoc, linesAt_block here, ih below, List.flatMap_cons,
      List.append_assoc]

/-! ## What is left of a module -/

theorem declares_opening (ident : String) : Source.declares (opening ident) = true := by
  simp only [Source.declares, opening, String.toList_append, List.append_assoc]
  rfl

theorem declares_declaration (ident : String) : Source.declares (declaration ident) = true := by
  simp only [Source.declares, declaration, String.toList_append, List.append_assoc]
  rfl

/-- Nothing in a module that is indented looks like a declaration. -/
theorem filter_inlined (module : Module) :
    module.inlined.filter Source.declares = [opening module.ident] := by
  have body : ((Source.lines (Package.trimEnd module.source.render)).map
      (Source.indented 1)).filter Source.declares = [] := by
    rw [List.filter_eq_nil_iff]
    exact List.forall_mem_map.2 fun line _ => by simp [Source.declares_indented]
  rw [inlined, List.cons_append, List.filter_cons_of_pos (declares_opening module.ident),
    List.filter_append, body]
  rfl

/-- The lines between the first and the last one, without their indentation. -/
def restored (module : Module) : String :=
  Source.unlines (module.inlined.tail.dropLast.map Source.unindented)

theorem restored_eq (module : Module) :
    module.restored = Package.trimEnd module.source.render := by
  rw [restored, inlined, List.cons_append, List.tail_cons, List.dropLast_concat, List.map_map]
  refine (congrArg Source.unlines ?_).trans (Source.unlines_lines _)
  exact (List.map_congr_left fun line _ => Source.unindented_indented line).trans (List.map_id _)

/-- What is restored lacks the last line break, and ends in nothing else that is blank. -/
theorem render_eq_restored (closed : [.closing ""] <:+ module.source) :
    module.source.render = module.restored ++ "\n" ∧
      ∀ c, module.restored.toList.getLast? = some c → Blank.isBlank c = false := by
  obtain ⟨front, spelled⟩ := Source.exists_render_of_closed closed
  have last : (front ++ "\x7d").toList.getLast? = some '\x7d' := by
    rw [String.toList_append]
    exact List.getLast?_concat
  have restored : module.restored = front ++ "\x7d" := by
    rw [restored_eq, spelled, Package.trimEnd_line _ last rfl]
  rw [restored, last]
  exact ⟨spelled, by rintro c ⟨⟩; rfl⟩

theorem opening_injective : Function.Injective opening := by
  intro ident other same
  rw [opening, opening] at same
  exact (String.append_right_inj _).1 ((String.append_left_inj _).1 same)

theorem declaration_ne_opening (ident other : String) : declaration ident ≠ opening other := by
  intro same
  have ends := congrArg (fun line : String => line.toList.getLast?) same
  simp only [declaration, opening, String.toList_append, List.getLast?_append] at ends
  cases ends

end Module

namespace Package

theorem inlineModules_asides {modules : List Module} {asides : List String}
    (apart : ∀ line ∈ asides, Source.IsAside line) (rest : List String) :
    inlineModules modules (asides ++ rest) =
      (asides.map fun line => .line line) ++ inlineModules modules rest := by
  induction asides with
  | nil => rfl
  | cons line others ih =>
    obtain ⟨here, below⟩ := List.forall_mem_cons.1 apart
    have none : (modules.find? fun module => Module.declaration module.ident = line) = none := by
      refine List.find?_eq_none.2 fun module _ same => ?_
      have silent := here.silent
      rw [← of_decide_eq_true same, Source.declares, Module.declaration, String.toList_append,
        String.toList_append] at silent
      cases silent
    rw [List.cons_append, inlineModules, none, List.map_cons, List.cons_append]
    exact congrArg (_ :: ·) (ih below)

theorem inlineModules_declarations {modules : List Module}
    (distinct : (modules.map Module.ident).Nodup) (rest : List String) :
    inlineModules modules ((modules.map fun module => Module.declaration module.ident) ++ rest) =
      modules.flatMap Module.block ++ inlineModules [] rest := by
  induction modules with
  | nil => rfl
  | cons module others ih =>
    obtain ⟨fresh, below⟩ := List.nodup_cons.1 distinct
    have found : ((module :: others).find? fun other =>
        Module.declaration other.ident = Module.declaration module.ident) = some module :=
      List.find?_cons_of_pos (decide_eq_true rfl)
    have left : ((module :: others).filter fun other => other.ident ≠ module.ident) = others := by
      rw [List.filter_cons_of_neg (by simp)]
      refine List.filter_eq_self.2 fun other member => decide_eq_true fun same => fresh ?_
      exact List.mem_map.2 ⟨other, member, same⟩
    rw [List.map_cons, List.cons_append, inlineModules, found]
    simp only
    rw [left, ih below, List.flatMap_cons, List.append_assoc]
    rfl

theorem linesOf_render {source : Source} (bare : ∀ line ∈ Source.linesAt 0 source,
    line.toList.reverse.head? ≠ some '\r') :
    linesOf source.render = Source.linesAt 0 source := by
  rw [linesOf, Source.lines_render, List.dropLast_concat]
  refine (List.map_congr_left fun line member => ?_).trans (List.map_id _)
  split
  next rest spelled =>
    have ends := bare line member
    rw [spelled] at ends
    exact absurd rfl ends
  next => rfl

variable {package : Package} {before after : List String}

/-- Every declaration of an index gives way to its module, and every other line stays. -/
theorem linesAt_singleSource
    (index : Source.linesAt 0 package.index =
      before ++ (package.modules.map fun module => Module.declaration module.ident) ++ after)
    (asides : ∀ line ∈ before, Source.IsAside line) (asides' : ∀ line ∈ after, Source.IsAside line)
    (single : ∀ module ∈ package.modules, '\n' ∉ module.ident.toList)
    (distinct : (package.modules.map Module.ident).Nodup) :
    Source.linesAt 0 package.singleSource =
      before ++ package.modules.flatMap Module.inlined ++ after := by
  have bare : ∀ line ∈ Source.linesAt 0 package.index, line.toList.reverse.head? ≠ some '\r' := by
    have ends (ident : String) : (Module.declaration ident).toList.reverse.head? ≠ some '\r' :=
      Source.bare_append (by decide) (by decide)
    rw [index]
    exact List.forall_mem_append.2 ⟨List.forall_mem_append.2 ⟨fun line member =>
      (asides line member).bare, List.forall_mem_map.2 fun module _ => ends module.ident⟩,
      fun line member => (asides' line member).bare⟩
  have kept (lines : List String) (apart : ∀ line ∈ lines, Source.IsAside line) :
      Source.linesAt 0 (lines.map fun line => .line line) = lines :=
    (Source.linesAt_map_line fun line member => (apart line member).single).trans (List.map_id _)
  have last : inlineModules [] after = after.map fun line => .line line := by
    have none := @inlineModules_asides [] after asides' []
    rwa [List.append_nil, inlineModules, List.append_nil] at none
  rw [singleSource, linesOf_render bare, index, List.append_assoc, inlineModules_asides asides,
    inlineModules_declarations distinct, last, Source.linesAt_append,
    Source.depthAfter_map_line, kept before asides, Module.linesAt_flatMap_block single,
    kept after asides', List.append_assoc]

theorem filter_declares (modules : List Module) (asides : ∀ line ∈ before, Source.IsAside line)
    (asides' : ∀ line ∈ after, Source.IsAside line) :
    (before ++ modules.flatMap Module.inlined ++ after).filter Source.declares =
      modules.map fun module => Module.opening module.ident := by
  have none (lines : List String) (apart : ∀ line ∈ lines, Source.IsAside line) :
      lines.filter Source.declares = [] :=
    List.filter_eq_nil_iff.2 fun line member => by simp [(apart line member).silent]
  rw [List.filter_append, List.filter_append, none before asides, none after asides',
    List.nil_append, List.append_nil, List.filter_flatMap]
  simp only [Module.filter_inlined]
  exact List.map_eq_flatMap.symm

section Opened

variable {output : List String} (opened : output.filter Source.declares =
  package.modules.map fun module => Module.opening module.ident)

include opened

theorem count_opening (distinct : (package.modules.map Module.ident).Nodup) {module : Module}
    (member : module ∈ package.modules) : output.count (Module.opening module.ident) = 1 := by
  have openings : (package.modules.map fun module => Module.opening module.ident).Nodup := by
    have apart := distinct.map Module.opening_injective
    rwa [List.map_map] at apart
  calc
    output.count (Module.opening module.ident) =
        (output.filter Source.declares).count (Module.opening module.ident) :=
      (List.count_filter (Module.declares_opening module.ident)).symm
    _ = (package.modules.map fun module => Module.opening module.ident).count
          (Module.opening module.ident) := by rw [opened]
    _ = 1 := List.count_eq_one_of_mem openings
          (List.mem_map_of_mem (f := fun module => Module.opening module.ident) member)

theorem declaration_notMem (ident : String) : Module.declaration ident ∉ output := by
  intro inside
  have declaring : Module.declaration ident ∈ output.filter Source.declares :=
    List.mem_filter.2 ⟨inside, Module.declares_declaration ident⟩
  rw [opened] at declaring
  obtain ⟨module, -, same⟩ := List.mem_map.1 declaring
  exact Module.declaration_ne_opening ident module.ident same.symm

end Opened

end Package

namespace Catalog

open Source

variable {idl : Idl} {catalog : Catalog} {options : RenderOptions} {package : Package}

theorem typeName_of_renderModule {type : TypeDef} {module : Module}
    (made : catalog.renderModule options type = .ok module) : module.typeName = type.name := by
  obtain ⟨bundle, -, rest⟩ := bind_eq_ok.1 made
  obtain ⟨source, -, done⟩ := bind_eq_ok.1 rest
  rw [← pure_eq_ok.1 done]

theorem idents_of_render (rendered : catalog.render options = .ok package) :
    package.modules.map Module.ident = catalog.table.types.map TypeDef.moduleIdent :=
  map_of_mapM (fun _ _ made => (renderModule_eq_ok made).1) (render_eq_ok rendered).2

/-- The lines of an index are those of its declarations, in the order of the modules, with lines
beside them on both sides. -/
theorem exists_linesAt_index
    (identifiers : ∀ type ∈ catalog.table.types, IsIdentifier type.name)
    (single : '\n' ∉ options.runtimePath.toList)
    (rendered : catalog.render options = .ok package) :
    ∃ before after, linesAt 0 package.index = before ++
        (package.modules.map fun module => Module.declaration module.ident) ++ after ∧
      (∀ line ∈ before, IsAside line) ∧ ∀ line ∈ after, IsAside line := by
  obtain ⟨front, back, steps, level, asides, asides'⟩ := exists_renderIndex identifiers single
  have declared : ∀ type ∈ catalog.table.types,
      '\n' ∉ (Module.declaration type.moduleIdent).toList := by
    intro type member
    simp only [Module.declaration, String.toList_append, List.mem_append, not_or]
    exact ⟨⟨by decide, notMem_moduleIdent (identifiers type member)⟩, by decide⟩
  have modules : (catalog.table.types.map fun type => Module.declaration type.moduleIdent) =
      package.modules.map fun module => Module.declaration module.ident := by
    have idents := congrArg (List.map Module.declaration) (idents_of_render rendered)
    rw [List.map_map, List.map_map] at idents
    exact idents.symm
  refine ⟨linesAt 0 front, linesAt 0 back, ?_, forall_isAside_linesAt asides,
    forall_isAside_linesAt asides'⟩
  rw [(render_eq_ok rendered).1, steps, linesAt_append, linesAt_append, depthAfter_append, level,
    depthAfter_map_line, linesAt_map_line declared, modules]

/-- The one text for a package is its index, with each declaration replaced by its module in place.
It opens each module once and declares none, and every module can be restored from it, up to the
line break at its end. -/
theorem singleSource_exact (accepted : ofIdl idl = .ok catalog)
    (single : '\n' ∉ options.runtimePath.toList)
    (rendered : catalog.render options = .ok package) :
    package.modules.map Module.typeName = idl.types.map TypeDef.name ∧
      (∃ before after,
        lines package.index.render = before ++
            (package.modules.map fun module => Module.declaration module.ident) ++ after ∧
          lines package.singleSource.render =
            before ++ package.modules.flatMap Module.inlined ++ after) ∧
      (∀ module ∈ package.modules,
        (lines package.singleSource.render).count (Module.opening module.ident) = 1) ∧
      (∀ ident, Module.declaration ident ∉ lines package.singleSource.render) ∧
      ∀ module ∈ package.modules, module.source.render = module.restored ++ "\n" ∧
        ∀ c, module.restored.toList.getLast? = some c → Blank.isBlank c = false := by
  have types : catalog.table.types = idl.types := by rw [(ofIdl_eq_ok accepted).1]
  have identifiers : ∀ type ∈ catalog.table.types, IsIdentifier type.name := fun type member =>
    isIdentifier_of_ofIdl accepted (types ▸ member)
  have idents := idents_of_render rendered
  have distinct : (package.modules.map Module.ident).Nodup := by
    have stems := (distinct_of_ofIdl accepted).1
    rw [idents, types]
    exact List.Nodup.of_map Naming.fileStem (by rwa [List.map_map])
  have plain : ∀ module ∈ package.modules, '\n' ∉ module.ident.toList := by
    intro module member
    obtain ⟨type, declared, made⟩ := exists_mem_of_mapM (render_eq_ok rendered).2 member
    rw [(renderModule_eq_ok made).1]
    exact notMem_moduleIdent (identifiers type declared)
  obtain ⟨before, after, index, asides, asides'⟩ :=
    exists_linesAt_index identifiers single rendered
  have output := Package.linesAt_singleSource index asides asides' plain distinct
  have ended : ∀ line ∈ after ++ [""], IsAside line :=
    List.forall_mem_append.2 ⟨asides', by decide⟩
  have text : lines package.singleSource.render =
      before ++ package.modules.flatMap Module.inlined ++ (after ++ [""]) := by
    rw [lines_render, output, List.append_assoc]
  have opened : (lines package.singleSource.render).filter declares =
      package.modules.map fun module => Module.opening module.ident := by
    rw [text]
    exact Package.filter_declares package.modules asides ended
  refine ⟨?names, ⟨before, after ++ [""], ?index, text⟩,
    fun module member => Package.count_opening opened distinct member,
    Package.declaration_notMem opened, ?restored⟩
  case names =>
    rw [← types]
    exact map_of_mapM (fun _ _ made => typeName_of_renderModule made) (render_eq_ok rendered).2
  case index => rw [lines_render, index, List.append_assoc]
  case restored =>
    intro module member
    obtain ⟨type, -, made⟩ := exists_mem_of_mapM (render_eq_ok rendered).2 member
    obtain ⟨-, bundle, rendered'⟩ := renderModule_eq_ok made
    exact Module.render_eq_restored (suffix_bundle rendered')

theorem singleSource_exact_chain : ∃ package,
    ofIdl chain = .ok catalogOfChain ∧ '\n' ∉ RenderOptions.standard.runtimePath.toList ∧
      catalogOfChain.render .standard = .ok package ∧
      package.modules.map Module.typeName = ["Node", "Mark"] ∧
      (∀ module ∈ package.modules,
        (lines package.singleSource.render).count (Module.opening module.ident) = 1) ∧
      Module.declaration "node" ∉ lines package.singleSource.render ∧
      ∀ module ∈ package.modules, module.source.render = module.restored ++ "\n" := by
  have accepted : ofIdl chain = .ok catalogOfChain := rfl
  have single : '\n' ∉ RenderOptions.standard.runtimePath.toList := by decide
  obtain ⟨package, rendered⟩ : ∃ package, catalogOfChain.render .standard = .ok package :=
    ⟨_, rfl⟩
  obtain ⟨names, -, once, undeclared, restored⟩ := singleSource_exact accepted single rendered
  exact ⟨package, accepted, single, rendered, names, once, undeclared "node",
    fun module member => (restored module member).1⟩

end Catalog

end WireSchema
