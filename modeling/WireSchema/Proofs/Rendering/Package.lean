import WireSchema.Proofs.Naming
import WireSchema.Proofs.Rendering.Identifiers

/-! Files of rendered packages: what they are called, and what tells a module from the index. -/

namespace WireSchema

open Outcome

/-! ## First lines -/

namespace Source

theorem splitOn_append_of_notMem {start rest : List Char} {c : Char} (apart : c ∉ start) :
    (start ++ rest).splitOn c = (rest.splitOn c).modifyHead (start ++ ·) := by
  induction start with
  | nil => exact (congrFun List.modifyHead_id (rest.splitOn c)).symm
  | cons first others ih =>
    obtain ⟨here, below⟩ := not_or.1 (List.mem_cons.not.1 apart)
    rw [List.cons_append, List.splitOn_cons_eq_if_modifyHead, if_neg (by simpa using Ne.symm here),
      ih below, List.modifyHead_modifyHead]
    rfl

/-- A text starts as its first line does. -/
theorem isPrefix_render {text : String} {start : List Char} (steps : Source)
    (begins : start <+: text.toList) (single : '\n' ∉ start) (nonempty : start ≠ []) :
    start <+: (render (.line text :: steps)).toList := by
  obtain ⟨more, whole⟩ := begins
  obtain ⟨first, others, split⟩ := List.exists_cons_of_ne_nil (List.splitOn_ne_nil '\n' more)
  have cut : lines text = String.ofList (start ++ first) :: others.map String.ofList := by
    rw [lines, ← whole, splitOn_append_of_notMem single, split]
    rfl
  have filled : String.ofList (start ++ first) ≠ "" := by
    intro empty
    have none := congrArg String.toList empty
    rw [String.toList_ofList] at none
    exact nonempty (List.append_eq_nil_iff.1 none).1
  rw [render, renderAt]
  simp only [Step.text, cut, List.map_cons, List.cons_append, String.join_cons, indentLine,
    if_neg filled, String.toList_append, String.toList_ofList, List.append_assoc]
  exact List.prefix_append _ _

theorem exists_spaced (step : Step) (steps : Source) (parts : List Source) :
    ∃ rest, spaced ((step :: steps) :: parts) = step :: rest := by
  cases parts with
  | nil => exact ⟨steps, by simp [spaced]⟩
  | cons part others => exact ⟨_, rfl⟩

/-! ## Last lines -/

theorem suffix_spaced (parts : List Source) (last : Source) :
    last <:+ spaced (parts ++ [last]) := by
  induction parts with
  | nil => simp [spaced]
  | cons part rest ih =>
    obtain ⟨next, others, filled⟩ :=
      List.exists_cons_of_ne_nil (List.append_ne_nil_of_right_ne_nil rest (List.cons_ne_nil last []))
    rw [filled] at ih
    rw [List.cons_append, filled, spaced, List.intercalate_cons_cons]
    exact ih.trans (List.suffix_append _ _)

theorem suffix_block (header : String) (body : Source) : [.closing ""] <:+ block header body :=
  List.suffix_append _ _

/-- A source that closes a block at last ends with the brace. -/
theorem exists_render_of_closed {source : Source} (closed : [.closing ""] <:+ source) :
    ∃ front, source.render = front ++ "\x7d" ++ "\n" := by
  obtain ⟨body, rfl⟩ := closed
  have last (depth : Nat) : String.join (renderAt depth [.closing ""]) =
      indentation (depth - 1) ++ "\x7d" ++ "\n" := String.empty_append
  refine ⟨String.join (renderAt 0 body) ++ indentation (depthAfter 0 body - 1), ?_⟩
  rw [render, renderAt_append, String.join_append, last, ← String.append_assoc,
    ← String.append_assoc]

end Source

/-! ## Modules and the index -/

namespace Catalog

variable {catalog : Catalog} {options : RenderOptions} {package : Package}

theorem render_eq_ok (rendered : catalog.render options = .ok package) :
    package.index = catalog.renderIndex options ∧
      catalog.table.types.mapM (catalog.renderModule options) = .ok package.modules := by
  obtain ⟨modules, made, done⟩ := bind_eq_ok.1 rendered
  rw [← pure_eq_ok.1 done]
  exact ⟨rfl, made⟩

theorem isPrefix_index : "//! T".toList <+: (catalog.renderIndex options).render.toList := by
  obtain ⟨rest, same⟩ := Source.exists_spaced _ _ _
  rw [renderIndex, same]
  exact Source.isPrefix_render rest ⟨_, rfl⟩ (by decide) (by decide)

theorem isPrefix_bundle {bundle : Bundle} {source : Source}
    (made : bundle.render options = .ok source) : "//! `".toList <+: source.render.toList := by
  obtain ⟨items, -, done⟩ := bind_eq_ok.1 made
  obtain ⟨steps, same⟩ := Source.exists_spaced _ _ _
  rw [← pure_eq_ok.1 done, same]
  refine Source.isPrefix_render steps ?_ (by decide) (by decide)
  rw [String.toList_append, String.toList_append, String.toList_append, String.toList_append,
    List.append_assoc, List.append_assoc, List.append_assoc]
  exact List.prefix_append _ _

theorem suffix_bundle {bundle : Bundle} {source : Source}
    (made : bundle.render options = .ok source) : [.closing ""] <:+ source := by
  obtain ⟨items, listed, done⟩ := bind_eq_ok.1 made
  obtain ⟨parts, header, body, rfl⟩ : ∃ (parts : List Source) (header : String) (body : Source),
      items = parts ++ [Source.block header body] := by
    rw [Bundle.items] at listed
    split at listed
    next =>
      obtain ⟨members, -, done⟩ := bind_eq_ok.1 listed
      cases pure_eq_ok.1 done
      exact ⟨[_, _, _], _, _, rfl⟩
    next =>
      obtain ⟨variants, -, done⟩ := bind_eq_ok.1 listed
      cases pure_eq_ok.1 done
      exact ⟨_ ++ [_, _, _, _, _], _, _, by rw [List.append_assoc]; rfl⟩
  rw [← pure_eq_ok.1 done]
  exact (Source.suffix_block header body).trans (Source.suffix_spaced (_ :: _ :: parts) _)

theorem renderModule_eq_ok {type : TypeDef} {module : Module}
    (made : catalog.renderModule options type = .ok module) :
    module.ident = type.moduleIdent ∧
      ∃ bundle : Bundle, bundle.render options = .ok module.source := by
  obtain ⟨bundle, -, rest⟩ := bind_eq_ok.1 made
  obtain ⟨source, sourceMade, done⟩ := bind_eq_ok.1 rest
  cases pure_eq_ok.1 done
  exact ⟨rfl, bundle, sourceMade⟩

/-- No module reads like the index. -/
theorem render_module_ne_index {type : TypeDef} {module : Module}
    (made : catalog.renderModule options type = .ok module) :
    module.source.render ≠ (catalog.renderIndex options).render := by
  intro same
  obtain ⟨-, bundle, rendered⟩ := renderModule_eq_ok made
  have first := isPrefix_bundle rendered
  rw [same] at first
  have other := List.prefix_of_prefix_length_le first (@isPrefix_index catalog options) (by decide)
  exact absurd other (by decide)

/-! ## File names -/

theorem fileNames_of_render (rendered : catalog.render options = .ok package) :
    package.modules.map Module.fileName = catalog.table.types.map fun type =>
      Naming.fileStem type.moduleIdent ++ ".rs" := by
  refine map_of_mapM (fun type module made => ?_) (render_eq_ok rendered).2
  rw [Module.fileName, (renderModule_eq_ok made).1]

end Catalog

end WireSchema
