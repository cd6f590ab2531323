import WireSchema.Proofs.Naming.Conversion
import WireSchema.Source

/-! Lines of texts and of rendered sources. Rendering writes the lines of each step, with their
indentation, and ends all of them. -/

namespace WireSchema.Source

/-! ## Texts -/

def unlines (lines : List String) : String :=
  "\n".intercalate lines

theorem unlines_lines (text : String) : unlines (lines text) = text := by
  have pieces : (lines text).map String.toList = text.toList.splitOn '\n' := by
    rw [lines, List.map_map]
    exact (List.map_congr_left fun _ _ => String.toList_ofList).trans (List.map_id _)
  rw [← String.toList_inj, unlines, String.toList_intercalate, pieces]
  exact List.intercalate_splitOn '\n'

theorem notMem_of_mem_lines {text line : String} (member : line ∈ lines text) :
    '\n' ∉ line.toList := by
  obtain ⟨piece, among, rfl⟩ := List.mem_map.1 member
  rw [String.toList_ofList]
  exact fun inside => (Naming.exists_mem_splitOn.1 ⟨piece, among, inside⟩).2 rfl

theorem lines_of_notMem {text : String} (single : '\n' ∉ text.toList) : lines text = [text] := by
  rw [lines, List.splitOn_eq_singleton single, List.map_singleton, String.ofList_toList]

/-- Lines that are ended one by one are the lines of the text, before an empty one. -/
theorem lines_join {texts : List String} (single : ∀ text ∈ texts, '\n' ∉ text.toList) :
    lines (String.join (texts.map fun text => text ++ "\n")) = texts ++ [""] := by
  induction texts with
  | nil => rfl
  | cons text rest ih =>
    obtain ⟨here, below⟩ := List.forall_mem_cons.1 single
    have spelled (next : String) : (text ++ "\n" ++ next).toList =
        text.toList ++ '\n' :: next.toList := by
      rw [String.toList_append, String.toList_append, List.append_assoc]
      rfl
    rw [List.map_cons, String.join_cons, lines, spelled,
      List.splitOn_append_cons_self_of_not_mem here, List.map_cons, String.ofList_toList]
    exact congrArg (text :: ·) (ih below)

/-! ## Indentation -/

def indented (depth : Nat) (line : String) : String :=
  if line = "" then "" else indentation depth ++ line

def unindented (line : String) : String :=
  match line.toList with
  | ' ' :: ' ' :: ' ' :: ' ' :: rest => String.ofList rest
  | _ => line

theorem unindented_indented (line : String) : unindented (indented 1 line) = line := by
  rw [indented]
  split
  next empty => exact empty.symm
  next =>
    have spelled : (indentation 1 ++ line).toList = ' ' :: ' ' :: ' ' :: ' ' :: line.toList := by
      rw [String.toList_append]
      rfl
    rw [unindented, spelled]
    exact String.ofList_toList

theorem indented_zero (line : String) : indented 0 line = line := by
  rw [indented]
  split
  next empty => exact empty.symm
  next => exact String.empty_append

theorem indentLine_eq (depth : Nat) (line : String) :
    indentLine depth line = indented depth line ++ "\n" := by
  rw [indentLine, indented]
  split <;> rfl

/-! ## Sources -/

def linesAt : Nat → Source → List String
  | _, [] => []
  | depth, step :: rest =>
    (lines step.text).map (indented (step.depthOf depth)) ++ linesAt (step.depthAfter depth) rest

theorem renderAt_eq (depth : Nat) (source : Source) :
    renderAt depth source = (linesAt depth source).map fun line => line ++ "\n" := by
  induction source generalizing depth with
  | nil => rfl
  | cons step rest ih =>
    rw [renderAt, linesAt, ih, List.map_append, List.map_map]
    exact congrArg (· ++ _) (List.map_congr_left fun line _ => indentLine_eq _ line)

theorem linesAt_append (depth : Nat) (first second : Source) :
    linesAt depth (first ++ second) =
      linesAt depth first ++ linesAt (depthAfter depth first) second := by
  induction first generalizing depth with
  | nil => rfl
  | cons step rest ih =>
    rw [List.cons_append, linesAt, linesAt, ih, List.append_assoc]
    rfl

theorem notMem_indented {depth : Nat} {line : String} (single : '\n' ∉ line.toList) :
    '\n' ∉ (indented depth line).toList := by
  have spaces : '\n' ∉ (indentation depth).toList := by
    induction depth with
    | zero => exact List.not_mem_nil
    | succ depth ih =>
      rw [indentation, String.toList_append, List.mem_append, not_or]
      exact ⟨by decide, ih⟩
  rw [indented]
  split
  · exact List.not_mem_nil
  · rw [String.toList_append, List.mem_append, not_or]
    exact ⟨spaces, single⟩

theorem notMem_of_mem_linesAt {depth : Nat} {source : Source} :
    ∀ line ∈ linesAt depth source, '\n' ∉ line.toList := by
  induction source generalizing depth with
  | nil => exact fun _ member => by cases member
  | cons step rest ih =>
    refine List.forall_mem_append.2 ⟨List.forall_mem_map.2 fun line member => ?_, ih⟩
    exact notMem_indented (notMem_of_mem_lines member)

/-- A rendered text has the lines of its source. -/
theorem lines_render (source : Source) : lines source.render = linesAt 0 source ++ [""] := by
  rw [render, renderAt_eq]
  exact lines_join notMem_of_mem_linesAt

/-! ## Single lines -/

theorem depthAfter_map_line {α : Type} (depth : Nat) (parts : List α) (text : α → String) :
    depthAfter depth (parts.map fun part => .line (text part)) = depth := by
  induction parts with
  | nil => rfl
  | cons part rest ih => exact ih

theorem linesAt_map_line {α : Type} {parts : List α} {text : α → String}
    (single : ∀ part ∈ parts, '\n' ∉ (text part).toList) :
    linesAt 0 (parts.map fun part => .line (text part)) = parts.map text := by
  induction parts with
  | nil => rfl
  | cons part rest ih =>
    obtain ⟨here, below⟩ := List.forall_mem_cons.1 single
    rw [List.map_cons, linesAt, Step.text, lines_of_notMem here, List.map_singleton,
      List.map_cons]
    exact congrArg₂ (· :: ·) (indented_zero (text part)) (ih below)

end WireSchema.Source
