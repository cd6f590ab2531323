import WireSchema.Proofs.Text.Brackets
import WireSchema.Source

/-! Brackets and depths of source texts. A balanced source closes all brackets it opens and comes
back to the depth it starts at, without ever falling below it. -/

namespace WireSchema

namespace Source

/-! ## Depths -/

/-- The depth after a step that does not have to stop at zero. -/
def Step.level? : Nat → Step → Option Nat
  | depth, .line _ | depth, .blank => some depth
  | depth, .opening _ | depth, .indent _ => some (depth + 1)
  | depth + 1, .closing _ | depth + 1, .dedent _ => some depth
  | 0, .closing _ | 0, .dedent _ => none

def Step.leaves : Step → Bool
  | .closing _ | .dedent _ => true
  | _ => false

def levels (source : Source) (depth : Nat) : Option Nat :=
  source.foldlM Step.level? depth

theorem levels_append (first second : Source) :
    levels (first ++ second) = fun depth => (levels first depth).bind (levels second) :=
  funext fun _ => List.foldlM_append

theorem Step.depthAfter_of_level {depth after : Nat} {step : Step}
    (level : step.level? depth = some after) :
    step.depthAfter depth = after ∧ (step.leaves = true → 0 < depth) := by
  cases step with
  | line _ | blank | opening _ | indent _ => exact ⟨Option.some.inj level, nofun⟩
  | closing _ | dedent _ =>
    cases depth with
    | zero => cases level
    | succ depth => exact ⟨Option.some.inj level, fun _ => Nat.succ_pos depth⟩

theorem depthAfter_of_levels {source : Source} {depth after : Nat}
    (level : levels source depth = some after) : depthAfter depth source = after := by
  induction source generalizing depth with
  | nil => exact Option.some.inj level
  | cons step rest ih =>
    obtain ⟨next, stepped, others⟩ := Option.bind_eq_some_iff.1 level
    show depthAfter (step.depthAfter depth) rest = after
    rw [(Step.depthAfter_of_level stepped).1, ih others]

/-! ## Balanced sources -/

structure IsBalanced (source : Source) : Prop where
  brackets : Brackets.run (source.flatMap fun step => step.text.toList) = some
  levels : levels source = some

theorem isBalanced_nil : IsBalanced [] := ⟨rfl, rfl⟩

theorem IsBalanced.append {first second : Source} (balanced : IsBalanced first)
    (balanced' : IsBalanced second) : IsBalanced (first ++ second) where
  brackets := by
    rw [List.flatMap_append]
    exact Brackets.run_append_matched balanced.brackets balanced'.brackets
  levels := by
    rw [levels_append, balanced.levels, balanced'.levels]
    rfl

theorem isBalanced_line {text : String} (matched : Brackets.IsMatched text) :
    IsBalanced [.line text] where
  brackets := by
    rw [List.flatMap_singleton]
    exact matched
  levels := rfl

theorem IsBalanced.line_cons {text : String} {source : Source} (balanced : IsBalanced source)
    (matched : Brackets.IsMatched text) : IsBalanced (.line text :: source) :=
  (isBalanced_line matched).append balanced

theorem isBalanced_flatMap {α : Type} {parts : List α} {source : α → Source}
    (balanced : ∀ part ∈ parts, IsBalanced (source part)) : IsBalanced (parts.flatMap source) := by
  induction parts with
  | nil => exact isBalanced_nil
  | cons part rest ih =>
    obtain ⟨here, below⟩ := List.forall_mem_cons.1 balanced
    rw [List.flatMap_cons]
    exact here.append (ih below)

theorem isBalanced_of_forall {source : Source} (each : ∀ step ∈ source, IsBalanced [step]) :
    IsBalanced source := by
  rw [← List.flatMap_singleton' source]
  exact isBalanced_flatMap each

theorem isBalanced_map_line {α : Type} {parts : List α} {text : α → String}
    (matched : ∀ part ∈ parts, Brackets.IsMatched (text part)) :
    IsBalanced (parts.map fun part => .line (text part)) :=
  isBalanced_of_forall (List.forall_mem_map.2 fun part member =>
    isBalanced_line (matched part member))

theorem isBalanced_spaced {parts : List Source} (balanced : ∀ part ∈ parts, IsBalanced part) :
    IsBalanced (spaced parts) := by
  have blank : IsBalanced [.blank] := ⟨rfl, rfl⟩
  rw [spaced]
  induction parts with
  | nil => exact isBalanced_nil
  | cons part rest ih =>
    obtain ⟨here, below⟩ := List.forall_mem_cons.1 balanced
    cases rest with
    | nil =>
      rw [List.intercalate_singleton]
      exact here
    | cons next others =>
      rw [List.intercalate_cons_cons]
      exact (here.append blank).append (ih below)

/-- A body between two steps that undo each other, in brackets and in depth. -/
theorem IsBalanced.between {enter leave : Step} {body : Source} (balanced : IsBalanced body)
    (level : ∀ depth, ∃ inner, enter.level? depth = some inner ∧ leave.level? inner = some depth)
    (matched : Brackets.IsMatched (enter.text ++ leave.text)) :
    IsBalanced (enter :: body ++ [leave]) where
  brackets := by
    rw [Brackets.IsMatched, String.toList_append, Brackets.run_append] at matched
    rw [List.flatMap_append, List.flatMap_cons, List.flatMap_singleton, Brackets.run_append,
      Brackets.run_append, balanced.brackets]
    simp only [Option.bind_fun_some]
    exact matched
  levels := by
    funext depth
    obtain ⟨inner, deeper, back⟩ := level depth
    rw [levels_append]
    show ((enter.level? depth).bind (Source.levels body)).bind (Source.levels [leave]) = some depth
    rw [deeper, Option.bind_some, balanced.levels, Option.bind_some]
    show (leave.level? inner).bind some = some depth
    rw [back, Option.bind_some]

theorem IsBalanced.enclosed {header suffix : String} {body : Source} (balanced : IsBalanced body)
    (matched : Brackets.IsMatched (header ++ " \x7b" ++ "\x7d" ++ suffix)) :
    IsBalanced (enclosed header suffix body) := by
  rw [String.append_assoc] at matched
  exact balanced.between (fun depth => ⟨depth + 1, rfl, rfl⟩) matched

theorem IsBalanced.block {header : String} {body : Source} (balanced : IsBalanced body)
    (matched : Brackets.IsMatched header) : IsBalanced (block header body) :=
  balanced.enclosed
    (Brackets.isMatched_joined (.filled matched) [.fixed _, .fixed _, .fixed []] rfl)

theorem IsBalanced.continued {header footer : String} {body : Source} (balanced : IsBalanced body)
    (matched : Brackets.IsMatched (header ++ footer)) :
    IsBalanced (continued header footer body) :=
  balanced.between (fun depth => ⟨depth + 1, rfl, rfl⟩) matched

/-- Lines around a body may close each other without a change of depth. -/
theorem IsBalanced.between_lines {first last : String} {body : Source} (balanced : IsBalanced body)
    (matched : Brackets.IsMatched (first ++ last)) :
    IsBalanced (.line first :: body ++ [.line last]) :=
  balanced.between (fun depth => ⟨depth, rfl, rfl⟩) matched

/-! ## Rendered sources -/

/-- Line breaks are no brackets. -/
theorem filter_splitOn (text : List Char) :
    (text.splitOn '\n').flatMap (fun piece => piece.filter Brackets.isBracket) =
      text.filter Brackets.isBracket := by
  have breaks (c : Char) : (Brackets.isBracket c && c != '\n') = Brackets.isBracket c := by
    by_cases same : c = '\n'
    · rw [same]
      rfl
    · rw [bne_iff_ne.2 same, Bool.and_true]
  calc (text.splitOn '\n').flatMap (fun piece => piece.filter Brackets.isBracket)
    _ = (text.splitOn '\n').flatten.filter Brackets.isBracket := by
        rw [List.filter_flatten, List.flatMap_def]
    _ = (text.filter (· != '\n')).filter Brackets.isBracket := by rw [Naming.flatten_splitOn]
    _ = text.filter Brackets.isBracket := by
        rw [List.filter_filter]
        exact List.filter_congr fun c _ => breaks c

theorem filter_indentLine (depth : Nat) (line : String) :
    (indentLine depth line).toList.filter Brackets.isBracket =
      line.toList.filter Brackets.isBracket := by
  have blank : (indentation depth).toList.filter Brackets.isBracket = [] := by
    induction depth with
    | zero => rfl
    | succ depth ih =>
      rw [indentation, String.toList_append, List.filter_append, ih]
      rfl
  have last : "\n".toList.filter Brackets.isBracket = [] := rfl
  rw [indentLine]
  split
  next empty =>
    rw [empty]
    rfl
  next =>
    rw [String.toList_append, String.toList_append, List.filter_append, List.filter_append, blank,
      last, List.nil_append, List.append_nil]

/-- Rendering adds no brackets to those of the steps. -/
theorem filter_render (source : Source) :
    source.render.toList.filter Brackets.isBracket =
      (source.flatMap fun step => step.text.toList).filter Brackets.isBracket := by
  have each (depth : Nat) : ((renderAt depth source).flatMap String.toList).filter
      Brackets.isBracket =
        (source.flatMap fun step => step.text.toList).filter Brackets.isBracket := by
    induction source generalizing depth with
    | nil => rfl
    | cons step rest ih =>
      rw [renderAt, List.flatMap_append, List.filter_append, ih, List.flatMap_cons,
        List.filter_append, List.flatMap_map, List.filter_flatMap]
      simp only [filter_indentLine]
      rw [lines, List.flatMap_map]
      simp only [String.toList_ofList]
      rw [filter_splitOn]
  rw [render, String.toList_join]
  exact each 0

theorem IsBalanced.isMatched_render {source : Source} (balanced : IsBalanced source) :
    Brackets.IsMatched source.render :=
  (Brackets.run_eq_of_filter (filter_render source)).trans balanced.brackets

/-- Every rendered line is ended. -/
theorem exists_render_eq {source : Source} (nonempty : source ≠ []) :
    ∃ body, source.render.toList = body ++ ['\n'] := by
  obtain rfl | ⟨before, step, rfl⟩ := List.eq_nil_or_concat' source
  · exact absurd rfl nonempty
  obtain none | ⟨first, line, split⟩ := List.eq_nil_or_concat' (lines step.text)
  · exact absurd (List.map_eq_nil_iff.1 none) (List.splitOn_ne_nil _ _)
  have ended (depth : Nat) : ∃ body, (indentLine depth line).toList = body ++ ['\n'] := by
    rw [indentLine]
    split
    · exact ⟨[], rfl⟩
    · exact ⟨_, String.toList_append⟩
  obtain ⟨body, last⟩ := ended (step.depthOf (depthAfter 0 before))
  rw [render, renderAt_append, renderAt, split, List.map_append, List.map_singleton, renderAt,
    List.append_nil, ← List.append_assoc, String.toList_join, List.flatMap_append,
    List.flatMap_singleton, last, ← List.append_assoc]
  exact ⟨_, rfl⟩

/-- Whether all brackets of the rendered text are nested and closed, and the depth comes back to
zero, where no step has to leave it. -/
structure IsWellBracketed (source : Source) : Prop where
  nested : Brackets.AreNested source.render
  level : depthAfter 0 source = 0
  leaves : ∀ before step after, source = before ++ step :: after → step.leaves = true →
    0 < depthAfter 0 before

theorem IsBalanced.isWellBracketed {source : Source} (balanced : IsBalanced source) :
    IsWellBracketed source where
  nested := balanced.isMatched_render.areNested
  level := depthAfter_of_levels (congrFun balanced.levels 0)
  leaves := by
    rintro before step after rfl leaving
    have level := congrFun balanced.levels 0
    rw [levels_append] at level
    obtain ⟨depth, reached, others⟩ := Option.bind_eq_some_iff.1 level
    obtain ⟨next, stepped, -⟩ := Option.bind_eq_some_iff.1 others
    rw [depthAfter_of_levels reached]
    exact (Step.depthAfter_of_level stepped).2 leaving

end Source

end WireSchema
