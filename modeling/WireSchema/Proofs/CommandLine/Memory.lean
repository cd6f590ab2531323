import WireSchema.CommandLine.Memory
import WireSchema.Proofs.Outcome

/-! Files in memory. A path leads to a file once the file is written, and writing it leaves the
other files of its directory as they are. -/

namespace WireSchema.CommandLine

open Outcome

structure IsPlainName (name : String) : Prop where
  separate : '/' ∉ name.toList
  nonempty : name ≠ ""
  notHere : name ≠ "."
  notAbove : name ≠ ".."

namespace Memory

/-! ## Paths -/

theorem components_of_plain {name : String} (separate : '/' ∉ name.toList) :
    components name = [name] := by
  rw [components, List.splitOn_eq_singleton separate, List.map_singleton, String.ofList_toList]

theorem components_append (start : List Char) (name : String) (separate : '/' ∉ name.toList) :
    (List.splitOn '/' (start ++ '/' :: name.toList)).map String.ofList =
      (List.splitOn '/' start).map String.ofList ++ [name] := by
  rw [List.splitOn_append_cons_self, List.splitOn_eq_singleton separate, List.map_append,
    List.map_singleton, String.ofList_toList]

/-- However a directory is written, a name in it is the last component of its path. -/
theorem exists_base (directory : String) :
    ∃ base, ∀ name : String, '/' ∉ name.toList →
      components (joinFile directory name) = base ++ [name] := by
  unfold joinFile
  split
  next => exact ⟨[], fun name separate => components_of_plain separate⟩
  next c last =>
    split
    next slash =>
      obtain ⟨start, whole⟩ := List.getLast?_eq_some_iff.1 last
      refine ⟨(List.splitOn '/' start).map String.ofList, fun name separate => ?_⟩
      rw [components, String.toList_append, whole, slash, List.append_assoc]
      exact components_append start name separate
    next =>
      refine ⟨components directory, fun name separate => ?_⟩
      rw [components, String.toList_append, String.toList_append, List.append_assoc]
      exact components_append directory.toList name separate

/-! ## Nodes -/

def put (memory : Memory) (location : Location) (content : String) : Memory :=
  { memory with files := setFile location content memory.files }

theorem lookup_cons_if (location other : Location) (content : String)
    (files : List (Location × String)) :
    ((location, content) :: files).lookup other =
      if location = other then some content else files.lookup other := by
  by_cases same : location = other
  · simp [same]
  · have apart : (other == location) = false := by simpa using Ne.symm same
    simp [List.lookup_cons, same, apart]

/-- A file shows under its own location alone. -/
theorem lookup_setFile (location other : Location) (content : String)
    (files : List (Location × String)) :
    (setFile location content files).lookup other =
      if location = other then some content else files.lookup other := by
  induction files with
  | nil => exact lookup_cons_if location other content []
  | cons file rest ih =>
    obtain ⟨key, old⟩ := file
    rw [setFile]
    split
    next known =>
      simp only at known
      rw [lookup_cons_if, lookup_cons_if, known]
      split
      next => rfl
      next => rfl
    next apart =>
      rw [lookup_cons_if, lookup_cons_if, ih]
      split
      next here =>
        subst here
        exact (if_neg (Ne.symm apart)).symm
      next => rfl

theorem exists_mem_setFile {location : Location} {content : String}
    {files : List (Location × String)} {file : Location × String} (member : file ∈ files) :
    ∃ kept ∈ setFile location content files, kept.1 = file.1 := by
  induction files with
  | nil => cases member
  | cons first rest ih =>
    rw [setFile]
    obtain rfl | below := List.mem_cons.1 member
    · split
      next known => exact ⟨_, List.mem_cons_self, known.symm⟩
      next => exact ⟨file, List.mem_cons_self, rfl⟩
    · split
      next => exact ⟨file, List.mem_cons_of_mem _ below, rfl⟩
      next =>
        obtain ⟨kept, inside, same⟩ := ih below
        exact ⟨kept, List.mem_cons_of_mem _ inside, same⟩

variable {memory memory' : Memory} {location here place : Location} {content : String}

theorem node?_put_self : (memory.put location content).node? location = some (.file content) := by
  rw [node?, put, lookup_setFile, if_pos rfl]

/-- A file that is written changes no other node. -/
theorem node?_put {other : Location} {node : Node} (apart : other ≠ location)
    (known : memory.node? other = some node) :
    (memory.put location content).node? other = some node := by
  rw [node?] at known ⊢
  rw [put, lookup_setFile, if_neg (Ne.symm apart)]
  cases found : memory.files.lookup other with
  | some old =>
    rw [found] at known
    exact known
  | none =>
    rw [found] at known
    simp only at known ⊢
    split at known
    next inside =>
      rw [if_pos]
      · exact known
      · rw [Bool.or_eq_true] at inside ⊢
        refine inside.imp id fun above => ?_
        obtain ⟨file, member, prefixed⟩ := List.any_eq_true.1 above
        obtain ⟨kept, stays, same⟩ := exists_mem_setFile member
        exact List.any_eq_true.2 ⟨kept, stays, same ▸ prefixed⟩
    next => cases known

/-! ## Following paths -/

def next (here : Location) (name : String) : Location :=
  if name = "" || name = "." then here
  else if name = ".." then here.dropLast
  else here ++ [name]

variable {name : String} {names rest : List String} {node : Node} {reached : Location × Node}

theorem next_plain (plain : IsPlainName name) : next here name = here ++ [name] := by
  simp [next, plain.nonempty, plain.notHere, plain.notAbove]

theorem follow_nil :
    memory.follow here [] = .ok (place, node) ↔ here = place ∧ memory.node? here = some node := by
  rw [follow]
  split
  next other found => simp [found]
  next missing => simp [missing]

/-- Every component but the last one is a directory. -/
theorem follow_cons :
    memory.follow here (name :: rest) = .ok reached ↔
      memory.node? here = some .directory ∧ memory.follow (next here name) rest = .ok reached := by
  rw [follow]
  split
  next missing => simp [missing]
  next content found => simp [found]
  next found =>
    rw [and_iff_right found, next]
    split
    next => exact Iff.rfl
    next =>
      split
      next => exact Iff.rfl
      next => exact Iff.rfl

theorem follow_append :
    memory.follow here (names ++ name :: rest) = .ok reached ↔
      ∃ place, memory.follow here names = .ok (place, .directory) ∧
        memory.follow place (name :: rest) = .ok reached := by
  induction names generalizing here with
  | nil =>
    constructor
    · intro followed
      exact ⟨here, follow_nil.2 ⟨rfl, (follow_cons.1 followed).1⟩, followed⟩
    · rintro ⟨place, passed, followed⟩
      obtain ⟨rfl, -⟩ := follow_nil.1 passed
      exact followed
  | cons first others ih =>
    rw [List.cons_append, follow_cons, ih, ← exists_and_left]
    refine exists_congr fun place => ?_
    exact and_assoc.symm.trans (and_congr_left' follow_cons.symm)

theorem node?_of_follow (followed : memory.follow here names = .ok (place, node)) :
    memory.node? place = some node := by
  induction names generalizing here with
  | nil =>
    obtain ⟨rfl, found⟩ := follow_nil.1 followed
    exact found
  | cons name rest ih => exact ih (follow_cons.1 followed).2

/-- Directories stay where they are when a file is written. -/
theorem follow_put (vacant : memory.node? location ≠ some .directory)
    (followed : memory.follow here names = .ok (place, .directory)) :
    (memory.put location content).follow here names = .ok (place, .directory) := by
  have kept {other : Location} (known : memory.node? other = some .directory) :
      (memory.put location content).node? other = some .directory := by
    refine node?_put ?_ known
    rintro rfl
    exact vacant known
  induction names generalizing here with
  | nil =>
    obtain ⟨rfl, known⟩ := follow_nil.1 followed
    exact follow_nil.2 ⟨rfl, kept known⟩
  | cons name rest ih =>
    obtain ⟨known, below⟩ := follow_cons.1 followed
    exact follow_cons.2 ⟨kept known, ih below⟩

/-! ## Files -/

/-- A path leads to a file with a content, which is then read there if the path is relative. -/
def HasFile (memory : Memory) (path content : String) : Prop :=
  ∃ location, memory.follow [] (components path) = .ok (location, .file content)

theorem HasFile.unique {path content content' : String} (has : memory.HasFile path content)
    (has' : memory.HasFile path content') : content = content' := by
  obtain ⟨location, followed⟩ := has
  obtain ⟨location', followed'⟩ := has'
  cases followed.symm.trans followed'
  rfl

/-- Paths that are relative to the root of the memory are read. -/
theorem readFile_eq_ok {path : String} (nonempty : path ≠ "")
    (relative : path.toList.head? ≠ some '/') :
    memory.readFile path = .ok content ↔ memory.HasFile path content := by
  have found : memory.find path = memory.follow [] (components path) := by
    rw [find, if_neg]
    simp [nonempty, relative]
  rw [readFile, found, HasFile]
  cases followed : memory.follow [] (components path) with
  | error error => simp [bind, Except.bind]
  | ok reached =>
    obtain ⟨location, node⟩ := reached
    cases node with
    | file other => simp [bind, Except.bind, pure, Except.pure]
    | directory => simp [bind, Except.bind, throw, throwThe, MonadExceptOf.throw]

/-- The file of a name in the directory that the first components lead to. -/
theorem hasFile_iff {base : List String} {path : String} (plain : IsPlainName name)
    (parts : components path = base ++ [name]) :
    memory.HasFile path content ↔ ∃ here, memory.follow [] base = .ok (here, .directory) ∧
      memory.node? (here ++ [name]) = some (.file content) := by
  rw [HasFile, parts]
  simp only [follow_append, follow_cons, follow_nil, next_plain plain]
  constructor
  · rintro ⟨location, here, reached, -, rfl, found⟩
    exact ⟨here, reached, found⟩
  · rintro ⟨here, reached, found⟩
    exact ⟨here ++ [name], here, reached, node?_of_follow reached, rfl, found⟩

theorem writeFile_eq_ok {base : List String} {path : String}
    (parts : components path = base ++ [name]) :
    memory.writeFile path content = .ok memory' ↔
      ∃ here, memory.follow [] base = .ok (here, .directory) ∧
        memory.node? (here ++ [name]) ≠ some .directory ∧
        memory.put (here ++ [name]) content = memory' := by
  rw [writeFile, parts, List.dropLast_concat, List.getLastD_concat]
  cases memory.follow [] base with
  | error error => simp [bind, Except.bind]
  | ok reached =>
    obtain ⟨here, node⟩ := reached
    cases node with
    | file other => simp [bind, Except.bind, throw, throwThe, MonadExceptOf.throw]
    | directory =>
      simp only [bind, Except.bind, Except.ok.injEq, Prod.mk.injEq, and_true, exists_eq_left']
      split
      next occupied => simp [occupied, throw, throwThe, MonadExceptOf.throw]
      next vacant => simp [vacant, put, pure, Except.pure]

variable {directory name' content' : String}

theorem hasFile_of_writeFile (plain : IsPlainName name)
    (done : memory.writeFile (joinFile directory name) content = .ok memory') :
    memory'.HasFile (joinFile directory name) content := by
  obtain ⟨base, parts⟩ := exists_base directory
  obtain ⟨here, reached, vacant, rfl⟩ := (writeFile_eq_ok (parts name plain.separate)).1 done
  exact (hasFile_iff plain (parts name plain.separate)).2
    ⟨here, follow_put vacant reached, node?_put_self⟩

/-- The other files of a directory keep their content. -/
theorem HasFile.writeFile (plain : IsPlainName name) (plain' : IsPlainName name')
    (apart : name ≠ name') (has : memory.HasFile (joinFile directory name) content)
    (done : memory.writeFile (joinFile directory name') content' = .ok memory') :
    memory'.HasFile (joinFile directory name) content := by
  obtain ⟨base, parts⟩ := exists_base directory
  obtain ⟨here, reached, vacant, rfl⟩ := (writeFile_eq_ok (parts name' plain'.separate)).1 done
  obtain ⟨place, reached', found⟩ := (hasFile_iff plain (parts name plain.separate)).1 has
  cases reached.symm.trans reached'
  refine (hasFile_iff plain (parts name plain.separate)).2
    ⟨here, follow_put vacant reached, node?_put ?_ found⟩
  intro same
  exact apart (List.singleton_inj.1 (List.append_cancel_left same))

end Memory

end WireSchema.CommandLine
