import Mathlib.Data.List.TakeWhile
import WireSchema.Proofs.Rendering.Brackets.EnumModule
import WireSchema.Proofs.Rendering.Package

/-! Brackets of rendered packages: of each module, of the index, and of the text that has the
modules in the place of their declarations. -/

namespace WireSchema

open Brackets Outcome

/-! ## Modules -/

namespace Bundle

variable {table : Table} {registry : Registry} {type : TypeDef} {options : RenderOptions}

theorem isBalanced_items {items : List Source} (owner : IsIdentifier type.name)
    (named : type.body.HasIdentifiers)
    (made : (Bundle.mk table registry type type.body.layout).items = .ok items) :
    ∀ item ∈ items, item.IsBalanced := by
  obtain ⟨name, body⟩ := type
  have matched := TypeBody.isMatched_builder named
  cases body with
  | struct fields =>
    obtain ⟨members, membersMade, done⟩ := bind_eq_ok.1 made
    rw [← pure_eq_ok.1 done]
    exact Scope.isBalanced_structItems owner matched
      (Member.hasIdentifiers_of_ofFields membersMade named)
  | enum variants =>
    obtain ⟨members, membersMade, done⟩ := bind_eq_ok.1 made
    rw [← pure_eq_ok.1 done]
    exact Scope.isBalanced_enumItems owner matched
      (MemberVariant.hasIdentifiers_of_ofVariants membersMade named)

theorem isBalanced_render {source : Source} (owner : IsIdentifier type.name)
    (named : type.body.HasIdentifiers) (plain : IsPlain options.runtimePath)
    (made : (Bundle.mk table registry type type.body.layout).render options = .ok source) :
    source.IsBalanced := by
  obtain ⟨items, itemsMade, done⟩ := bind_eq_ok.1 made
  have name := (isPlain_of_isIdentifier owner).isMatched
  have kind : IsMatched type.body.kind.text := by
    cases type.body.kind <;> rfl
  rw [← pure_eq_ok.1 done]
  refine Source.isBalanced_spaced (List.forall_mem_cons.2 ⟨?header, List.forall_mem_cons.2
    ⟨?imports, isBalanced_items owner named itemsMade⟩⟩)
  case header =>
    exact (Source.isBalanced_line (isMatched_ofList rfl)).line_cons (isMatched_joined (.fixed _)
      [.filled name, .fixed _, .filled kind, .fixed _] rfl)
  case imports =>
    exact (Source.isBalanced_line (isMatched_joined (.fixed _)
      [.filled plain.isMatched, .fixed _, .fixed _] rfl)).line_cons (isMatched_ofList rfl)

end Bundle

namespace Catalog

variable {idl : Idl} {catalog : Catalog} {options : RenderOptions}

theorem isBalanced_module (accepted : ofIdl idl = .ok catalog) (plain : IsPlain options.runtimePath)
    {type : TypeDef} (member : type ∈ idl.types) {module : Module}
    (made : catalog.renderModule options type = .ok module) : module.source.IsBalanced := by
  have rules := wellFormed_of_ofIdl accepted
  obtain ⟨bundle, found, rest⟩ := bind_eq_ok.1 made
  cases (bundle_of_mem accepted member).symm.trans found
  obtain ⟨source, sourceMade, done⟩ := bind_eq_ok.1 rest
  rw [← pure_eq_ok.1 done]
  exact Bundle.isBalanced_render (rules.identifiers type member).1 (rules.hasIdentifiers member)
    plain sourceMade

/-! ## The index -/

theorem isMatched_declaration {ident : String} (plain : IsPlain ident) :
    IsMatched (Module.declaration ident) :=
  isMatched_joined (.fixed _) [.filled plain.isMatched, .fixed _] rfl

theorem isBalanced_exportLine {type : TypeDef} (identifier : IsIdentifier type.name) :
    Source.IsBalanced [exportLine type] := by
  have ident := (Naming.isPlain_fieldIdent identifier).isMatched
  have items : IsMatched (", ".intercalate type.exportedItems) :=
    isMatched_intercalate rfl fun item member => run_plain fun c inside =>
      isBracket_of_isWord (TypeDef.isWord_of_mem_exportedItems identifier item member c inside)
  exact Source.isBalanced_line (isMatched_joined (.fixed _)
    [.filled ident, .fixed _, .filled items, .fixed _] rfl)

theorem isBalanced_registryLine {type : TypeDef} (identifier : IsIdentifier type.name) :
    Source.IsBalanced [registryLine type] := by
  have module := (Naming.isPlain_fieldIdent identifier).isMatched
  have ident := (Naming.isPlain_typeIdent identifier).isMatched
  have name := isMatched_quote (isPlain_of_isIdentifier identifier)
  have line {layout : String} (matched : IsMatched layout) :
      IsMatched s!"        ({Quoted.quote type.name}, {layout})," :=
    isMatched_joined (.fixed _) [.filled name, .fixed _, .filled matched, .fixed _] rfl
  obtain ⟨name, body⟩ := type
  cases body with
  | struct fields =>
    exact Source.isBalanced_line
      (line (isMatched_joined (.filled module) [.fixed _, .filled ident, .fixed _] rfl))
  | enum variants =>
    exact Source.isBalanced_line (line (isMatched_joined (.filled module) [.fixed _] rfl))

theorem isBalanced_registryLines {types : List TypeDef} {registryPath : String}
    (identifiers : ∀ type ∈ types, IsIdentifier type.name) (matched : IsMatched registryPath) :
    (registryLines types registryPath).IsBalanced := by
  refine Source.IsBalanced.between_lines ?_ (isMatched_joined (.fixed _)
    [.filled matched, .fixed _, .fixed _, .fixed _] rfl)
  split
  · exact Source.isBalanced_line (isMatched_joined (.fixed _) [.filled matched, .fixed _] rfl)
  · have entries : Source.IsBalanced (types.map registryLine) :=
      Source.isBalanced_of_forall (List.forall_mem_map.2 fun type member =>
        isBalanced_registryLine (identifiers type member))
    have collected : Source.IsBalanced [.line "    .into_iter()", .line "    .collect()"] :=
      (Source.isBalanced_line (isMatched_ofList rfl)).line_cons (isMatched_ofList rfl)
    have list := (@Source.IsBalanced.between_lines "    [" "    ]" _ entries
      (isMatched_joined (.fixed _) [.fixed _] rfl)).append collected
    rwa [List.append_assoc] at list

theorem isBalanced_renderIndex (identifiers : ∀ type ∈ catalog.table.types, IsIdentifier type.name)
    (plain : IsPlain options.runtimePath) : (catalog.renderIndex options).IsBalanced := by
  have path : IsMatched (options.runtimePath ++ "::LayoutRegistry") :=
    isMatched_append plain.isMatched (isMatched_ofList rfl)
  refine Source.isBalanced_spaced ?_
  simp only [List.forall_mem_cons, List.not_mem_nil, false_imp_iff, implies_true, and_true]
  refine ⟨?header, ?declarations, ?exports, ?registry, ?function⟩
  case header => exact Source.isBalanced_line (isMatched_ofList rfl)
  case declarations =>
    exact Source.isBalanced_map_line fun type member =>
      isMatched_declaration (Naming.isPlain_fieldIdent (identifiers type member))
  case exports =>
    exact Source.isBalanced_of_forall (List.forall_mem_map.2 fun type member =>
      isBalanced_exportLine (identifiers type member))
  case registry => exact isBalanced_registryLines identifiers path
  case function =>
    refine .line_cons ?_ (isMatched_ofList rfl)
    exact (Source.isBalanced_line (isMatched_ofList rfl)).block
      (isMatched_joined (.fixed _) [.filled path] rfl)

end Catalog

/-! ## One text for all -/

namespace Package

theorem isBracket_of_isBlank {c : Char} (space : Blank.isBlank c = true) :
    isBracket c = false :=
  isBracket_of_clear (by decide) space

theorem filter_trimEnd (text : String) :
    (trimEnd text).toList.filter isBracket = text.toList.filter isBracket := by
  have space : (text.toList.reverse.takeWhile Blank.isBlank).filter isBracket = [] :=
    List.filter_eq_nil_iff.2 fun c member => by
      simp [isBracket_of_isBlank (List.mem_takeWhile_imp member)]
  rw [trimEnd, String.toList_ofList, Blank.trimEnd, List.filter_reverse,
    ← List.nil_append (List.filter _ _), ← space, ← List.filter_append,
    List.takeWhile_append_dropWhile, List.filter_reverse, List.reverse_reverse]

theorem filter_linesOf {text : String} {body : List Char} (ended : text.toList = body ++ ['\n']) :
    (linesOf text).flatMap (fun line => line.toList.filter isBracket) =
      text.toList.filter isBracket := by
  have pieces : Source.lines text = (body.splitOn '\n').map String.ofList ++ [""] := by
    rw [Source.lines, ended, List.splitOn_append_cons_self, List.map_append]
    rfl
  have last : ['\n'].filter isBracket = [] := rfl
  rw [linesOf, pieces, List.dropLast_concat, List.map_map, List.flatMap_map, ended,
    List.filter_append, last, List.append_nil, ← Source.filter_splitOn]
  refine List.flatMap_congr fun piece _ => ?_
  rw [Function.comp_apply]
  split
  next rest spelled =>
    rw [String.toList_ofList] at spelled
    rw [String.toList_ofList, ← List.reverse_reverse piece, spelled, List.reverse_cons,
      List.filter_append, List.filter_cons_of_neg (by decide), List.filter_nil, List.append_nil]
  next => rw [String.toList_ofList]

theorem isBalanced_inlined {module : Module} (plain : IsPlain module.ident)
    (balanced : module.source.IsBalanced) :
    Source.IsBalanced
      (Source.block s!"pub mod {module.ident}" [.line (trimEnd module.source.render)]) := by
  have text : IsMatched (trimEnd module.source.render) :=
    (run_eq_of_filter (filter_trimEnd _)).trans balanced.isMatched_render
  exact (Source.isBalanced_line text).block
    (isMatched_joined (.fixed _) [.filled plain.isMatched] rfl)

/-- A matched text comes in the place of each line that declares a module and has no brackets itself.
The other lines are not matched one by one. -/
theorem run_inlineModules {modules : List Module} {lines : List String}
    (each : ∀ module ∈ modules, IsPlain module.ident ∧ module.source.IsBalanced) :
    run ((inlineModules modules lines).flatMap fun step => step.text.toList) =
        run (lines.flatMap String.toList) ∧
      Source.levels (inlineModules modules lines) = some := by
  induction lines generalizing modules with
  | nil => exact ⟨rfl, rfl⟩
  | cons line rest ih =>
    rw [inlineModules, List.flatMap_cons, run_append]
    split
    next module found =>
      obtain ⟨plain, balanced⟩ := each module (List.mem_of_find?_eq_some found)
      have inlined := isBalanced_inlined plain balanced
      obtain ⟨brackets, levels⟩ := @ih (modules.filter fun other => other.ident ≠ module.ident)
        fun other member => each other (List.mem_filter.1 member).1
      have declared : Module.declaration module.ident = line := by
        simpa using List.find?_some found
      -- Both the line and what is put in its place leave the pending brackets as they are.
      rw [List.flatMap_append, run_append, inlined.brackets, brackets, Source.levels_append,
        inlined.levels, levels, ← declared, Catalog.isMatched_declaration plain]
      exact ⟨rfl, rfl⟩
    next =>
      obtain ⟨brackets, levels⟩ := ih each
      rw [List.flatMap_cons, run_append, brackets]
      exact ⟨rfl, levels⟩

theorem isBalanced_singleSource {package : Package}
    (each : ∀ module ∈ package.modules, IsPlain module.ident ∧ module.source.IsBalanced)
    (balanced : package.index.IsBalanced) (nonempty : package.index ≠ []) :
    package.singleSource.IsBalanced := by
  obtain ⟨body, ended⟩ := Source.exists_render_eq nonempty
  obtain ⟨brackets, levels⟩ := @run_inlineModules _ (linesOf package.index.render) each
  refine ⟨brackets.trans ?_, levels⟩
  rw [← balanced.brackets]
  refine run_eq_of_filter ?_
  rw [List.filter_flatMap, filter_linesOf ended, Source.filter_render]

end Package

namespace Catalog

variable {idl : Idl} {catalog : Catalog} {options : RenderOptions} {package : Package}

/-- Whatever an accepted catalog is rendered to, all brackets in it are nested and closed, and its
lines come back to the depth they start at without ever having to stop at zero. -/
theorem isWellBracketed_of_render (accepted : ofIdl idl = .ok catalog)
    (plain : IsPlain options.runtimePath) (rendered : catalog.render options = .ok package) :
    (∀ module ∈ package.modules, module.source.IsWellBracketed) ∧
      package.index.IsWellBracketed ∧ package.singleSource.IsWellBracketed := by
  have types : catalog.table.types = idl.types := by rw [(ofIdl_eq_ok accepted).1]
  obtain ⟨index, modulesMade⟩ := render_eq_ok rendered
  have modules : ∀ module ∈ package.modules,
      IsPlain module.ident ∧ module.source.IsBalanced := by
    intro module member
    obtain ⟨type, declared, made⟩ := exists_mem_of_mapM modulesMade member
    rw [types] at declared
    rw [(renderModule_eq_ok made).1]
    exact ⟨Naming.isPlain_fieldIdent (isIdentifier_of_ofIdl accepted declared),
      isBalanced_module accepted plain declared made⟩
  have indexBalanced : package.index.IsBalanced := by
    rw [index]
    refine isBalanced_renderIndex (fun type declared => ?_) plain
    rw [types] at declared
    exact isIdentifier_of_ofIdl accepted declared
  have nonempty : package.index ≠ [] := by
    obtain ⟨rest, same⟩ := Source.exists_spaced _ _ _
    rw [index, renderIndex, same]
    exact List.cons_ne_nil _ _
  exact ⟨fun module member => (modules module member).2.isWellBracketed,
    indexBalanced.isWellBracketed,
    (Package.isBalanced_singleSource modules indexBalanced nonempty).isWellBracketed⟩

/-- The chain, with a struct that refers to itself and an enum with a tuple. -/
theorem isWellBracketed_of_render_chain : ∃ package,
    ofIdl chain = .ok catalogOfChain ∧ IsPlain RenderOptions.standard.runtimePath ∧
      catalogOfChain.render .standard = .ok package ∧ package.modules.length = 2 ∧
      (∀ module ∈ package.modules, module.source.IsWellBracketed) ∧
      package.index.IsWellBracketed ∧ package.singleSource.IsWellBracketed := by
  have accepted : ofIdl chain = .ok catalogOfChain := rfl
  have plain : IsPlain RenderOptions.standard.runtimePath := isPlain_of_all rfl
  have emittable : ∀ type ∈ chain.types, type.IsEmittable := by
    refine List.forall_mem_cons.2 ⟨?_, List.forall_mem_singleton.2 ?_⟩
    · rw [TypeDef.isEmittable_struct]
      decide
    · rw [TypeDef.isEmittable_enum]
      refine ⟨rfl, ?_⟩
      simp
  obtain ⟨package, rendered⟩ : ∃ package, catalogOfChain.render .standard = .ok package :=
    exists_bind_pure.2 (exists_mapM.2 fun type member =>
      (exists_renderModule accepted member).2 (emittable type member))
  have two : package.modules.length = 2 :=
    (mapM_eq_ok.1 (render_eq_ok rendered).2).length_eq.symm
  exact ⟨package, accepted, plain, rendered, two, isWellBracketed_of_render accepted plain rendered⟩

end Catalog

end WireSchema
