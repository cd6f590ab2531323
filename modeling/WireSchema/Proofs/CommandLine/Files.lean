import WireSchema.Proofs.CommandLine.Actions
import WireSchema.Proofs.CommandLine.Memory
import WireSchema.Proofs.Record
import WireSchema.Proofs.Rendering.Package

/-! Files of packages. Of files that are written under one name the last one stays, and so a
package is read back as it was rendered if and only if its file names differ. -/

namespace WireSchema

open Outcome

namespace CommandLine

variable {memory memory' written : Memory} {directory : String}

/-! ## Writing files in order -/

def Memory.Stores (memory : Memory) (directory : String) (record : Record String) : Prop :=
  ∀ name content, Record.get? record name = some content →
    IsPlainName name ∧ memory.HasFile (joinFile directory name) content

theorem Memory.Stores.writeFile {record : Record String} {name content : String}
    (stores : memory.Stores directory record) (plain : IsPlainName name)
    (done : memory.writeFile (joinFile directory name) content = .ok memory') :
    memory'.Stores directory (Record.insert record name content) := by
  intro other content' found
  rw [Record.get?_insert] at found
  split at found
  next same =>
    cases found
    subst same
    exact ⟨plain, hasFile_of_writeFile plain done⟩
  next apart =>
    obtain ⟨plain', has⟩ := stores other content' found
    exact ⟨plain', has.writeFile plain' plain (Ne.symm apart) done⟩

/-- A directory after files have been written into it, one after another. -/
theorem Memory.Stores.writeFiles {record : Record String} {files : List (String × String)}
    (stores : memory.Stores directory record) (plain : ∀ file ∈ files, IsPlainName file.1)
    (done : files.foldlM (fun memory file => memory.writeFile (joinFile directory file.1) file.2)
      memory = .ok written) :
    written.Stores directory
      (files.foldl (fun record file => Record.insert record file.1 file.2) record) := by
  induction files generalizing memory record with
  | nil =>
    cases done
    exact stores
  | cons file rest ih =>
    obtain ⟨here, others⟩ := List.forall_mem_cons.1 plain
    obtain ⟨middle, first, tail⟩ := bind_eq_ok.1 done
    exact ih (stores.writeFile here first) others tail

/-! ## Actions in memory -/

def Action.runIn (action : Action (StateM Memory) Unit) (memory : Memory) :
    Except CommandError Unit × Memory :=
  action.run.run memory

theorem Action.runIn_then {first next : Action (StateM Memory) Unit} :
    (first >>= fun _ => next).runIn memory = (.ok (), written) ↔
      ∃ middle, first.runIn memory = (.ok (), middle) ∧
        next.runIn middle = (.ok (), written) := by
  constructor
  · intro done
    obtain ⟨_, middle, reached, rest⟩ := Action.runFrom_bind.1 done
    exact ⟨middle, reached, rest⟩
  · rintro ⟨middle, reached, rest⟩
    exact Action.runFrom_bind.2 ⟨(), middle, reached, rest⟩

def change (step : Memory → Except FileError Memory) (activity : Option Activity) :
    Action (StateM Memory) Unit := do
  attempt (← (Memory.attempt step : StateM Memory _)) .file activity

theorem runIn_change {step : Memory → Except FileError Memory} {activity : Option Activity} :
    (change step activity).runIn memory = (.ok (), written) ↔ step memory = .ok written := by
  have unfolded : (change step activity).runIn memory =
      ((Memory.attempt step memory).1.mapError fun error => ⟨activity, .file error⟩,
        (Memory.attempt step memory).2) := rfl
  rw [unfolded, Memory.attempt]
  cases step memory with
  | ok changed => simp [Except.mapError]
  | error error => simp [Except.mapError]

theorem runIn_writeAll {files : List (String × String)} {activity : Option Activity} :
    (files.forM fun file => change (fun memory =>
      memory.writeFile (joinFile directory file.1) file.2) activity).runIn memory =
        (.ok (), written) ↔
      files.foldlM (fun memory file => memory.writeFile (joinFile directory file.1) file.2)
        memory = .ok written := by
  induction files generalizing memory with
  | nil =>
    show ((.ok (), memory) : Except CommandError Unit × Memory) = (.ok (), written) ↔ _
    simp [pure, Except.pure]
  | cons file rest ih =>
    rw [List.foldlM_cons, bind_eq_ok]
    refine Action.runIn_then.trans ?_
    simp only [runIn_change, ih]

theorem runIn_writeFiles {files : List (String × String)} :
    (writeFiles Memory.host directory files).runIn memory = (.ok (), written) ↔
      ∃ middle, memory.makeDirectories directory = .ok middle ∧
        files.foldlM (fun memory file => memory.writeFile (joinFile directory file.1) file.2)
          middle = .ok written := by
  have unfolded : writeFiles Memory.host directory files =
      change (fun memory => memory.makeDirectories directory)
          (some (Activity.writeFiles directory)) >>= fun _ =>
        files.forM fun file => change (fun memory =>
          memory.writeFile (joinFile directory file.1) file.2)
            (some (Activity.writeFiles directory)) := rfl
  rw [unfolded, Action.runIn_then]
  simp only [runIn_change, runIn_writeAll]

/-- Of the files that were written under one name the last one is there. -/
theorem hasFile_of_writeFiles {files : List (String × String)}
    (plain : ∀ file ∈ files, IsPlainName file.1)
    (completed : (writeFiles Memory.host directory files).runIn memory = (.ok (), written))
    {name content : String} (last : Record.get? files.reverse name = some content) :
    written.HasFile (joinFile directory name) content := by
  obtain ⟨middle, -, done⟩ := runIn_writeFiles.1 completed
  have none : middle.Stores directory [] := fun _ _ found => by cases found
  exact (none.writeFiles plain done name content (by rwa [← Record.get?_ofList] at last)).2

end CommandLine

/-! ## Packages -/

open CommandLine

variable {idl : Idl} {catalog : Catalog} {options : RenderOptions} {package : Package}
  {memory written : Memory} {directory : String}

theorem isPlainName_index : IsPlainName "mod.rs" :=
  ⟨by decide, by decide, by decide, by decide⟩

theorem isPlainName_fileName {type : TypeDef} (identifier : IsIdentifier type.name) :
    IsPlainName (Naming.fileStem type.moduleIdent ++ ".rs") := by
  have long : 3 ≤ (Naming.fileStem type.moduleIdent ++ ".rs").toList.length := by
    rw [String.toList_append, List.length_append]
    exact Nat.le_add_left 3 _
  have other {name : String} (short : name.toList.length < 3) :
      Naming.fileStem type.moduleIdent ++ ".rs" ≠ name := by
    rintro same
    exact absurd (same ▸ long) (Nat.not_le.2 short)
  refine ⟨fun slash => ?_, other (by decide), other (by decide), other (by decide)⟩
  rw [String.toList_append] at slash
  obtain inside | ending := List.mem_append.1 slash
  · have word := Naming.isWord_of_mem_fileStem identifier inside
    exact absurd word (by decide)
  · exact absurd ending (by decide)

theorem fileName_eq_index {type : TypeDef} (identifier : IsIdentifier type.name) :
    Naming.fileStem type.moduleIdent ++ ".rs" = "mod.rs" ↔ Naming.snakeCase type.name = "mod" := by
  have split : "mod.rs" = "mod" ++ ".rs" := rfl
  rw [split, String.append_left_inj, TypeDef.moduleIdent,
    Naming.fileStem_eq_iff identifier (by decide) (by decide)]

namespace Catalog

theorem fileNames_of_accepted (accepted : ofIdl idl = .ok catalog)
    (rendered : catalog.render options = .ok package) :
    package.modules.map Module.fileName = idl.types.map fun type =>
      Naming.fileStem type.moduleIdent ++ ".rs" := by
  rw [fileNames_of_render rendered, (ofIdl_eq_ok accepted).1]

theorem nodup_fileNames (accepted : ofIdl idl = .ok catalog)
    (rendered : catalog.render options = .ok package) :
    (package.modules.map Module.fileName).Nodup := by
  have stems := (distinct_of_ofIdl accepted).1
  have named := stems.map fun stem stem' => (@String.append_left_inj stem stem' ".rs").1
  rw [List.map_map] at named
  rw [fileNames_of_accepted accepted rendered]
  exact named

/-- A module takes the name of the index if its type does. -/
theorem index_notMem_fileNames (accepted : ofIdl idl = .ok catalog)
    (rendered : catalog.render options = .ok package) :
    "mod.rs" ∉ package.modules.map Module.fileName ↔
      ∀ type ∈ idl.types, Naming.snakeCase type.name ≠ "mod" := by
  rw [fileNames_of_accepted accepted rendered, List.mem_map, not_exists]
  refine forall_congr' fun type => ?_
  rw [not_and]
  exact forall_congr' fun member =>
    (fileName_eq_index (isIdentifier_of_ofIdl accepted member)).not

theorem isPlainName_files (accepted : ofIdl idl = .ok catalog)
    (rendered : catalog.render options = .ok package) :
    ∀ file ∈ package.files, IsPlainName file.1 := by
  refine List.forall_mem_cons.2 ⟨isPlainName_index, fun file member => ?_⟩
  obtain ⟨module, inside, rfl⟩ := List.mem_map.1 member
  have named : module.fileName ∈ package.modules.map Module.fileName := List.mem_map_of_mem inside
  rw [fileNames_of_accepted accepted rendered] at named
  obtain ⟨type, declared, same⟩ := List.mem_map.1 named
  rw [← same]
  exact isPlainName_fileName (isIdentifier_of_ofIdl accepted declared)

/-- Modules come after the index. -/
theorem get?_files_module (accepted : ofIdl idl = .ok catalog)
    (rendered : catalog.render options = .ok package) {module : Module}
    (member : module ∈ package.modules) :
    Record.get? package.files.reverse module.fileName = some module.source.render := by
  have distinct : (Record.keys (package.modules.map fun module =>
      (module.fileName, module.source.render)).reverse).Nodup := by
    rw [Record.keys, List.map_reverse, List.map_map, List.nodup_reverse]
    exact nodup_fileNames accepted rendered
  have inside : (module.fileName, module.source.render) ∈ (package.modules.map fun module =>
      (module.fileName, module.source.render)).reverse :=
    List.mem_reverse.2 (List.mem_map_of_mem member)
  rw [Package.files, List.reverse_cons, Record.get?_append, Record.get?_of_mem distinct inside]
  rfl

theorem get?_files_index (apart : "mod.rs" ∉ package.modules.map Module.fileName) :
    Record.get? package.files.reverse "mod.rs" = some package.index.render := by
  have absent : Record.get? (package.modules.map fun module =>
      (module.fileName, module.source.render)).reverse "mod.rs" = none := by
    rw [Record.get?_eq_none, Record.keys, List.map_reverse, List.map_map, List.mem_reverse]
    exact apart
  rw [Package.files, List.reverse_cons, Record.get?_append, absent]
  rfl

/-- Once a package is written, its modules are there, and the index is there as well unless a type
is called like it. The other file names never clash. -/
theorem hasFile_of_render (accepted : ofIdl idl = .ok catalog)
    (rendered : catalog.render options = .ok package)
    (completed : (writeFiles Memory.host directory package.files).runIn memory =
      (.ok (), written)) :
    (∀ module ∈ package.modules,
      written.HasFile (joinFile directory module.fileName) module.source.render) ∧
    (written.HasFile (joinFile directory "mod.rs") package.index.render ↔
      ∀ type ∈ idl.types, Naming.snakeCase type.name ≠ "mod") ∧
    ((package.files.map Prod.fst).Nodup ↔
      ∀ type ∈ idl.types, Naming.snakeCase type.name ≠ "mod") := by
  have plain := isPlainName_files accepted rendered
  have modules : ∀ module ∈ package.modules,
      written.HasFile (joinFile directory module.fileName) module.source.render :=
    fun module member => hasFile_of_writeFiles plain completed
      (get?_files_module accepted rendered member)
  have apart := index_notMem_fileNames accepted rendered
  refine ⟨modules, ?_, ?_⟩
  · rw [← apart]
    constructor
    · intro index taken
      obtain ⟨module, member, same⟩ := List.mem_map.1 taken
      obtain ⟨type, -, made⟩ := exists_mem_of_mapM (render_eq_ok rendered).2 member
      have kept := modules module member
      rw [same] at kept
      rw [(render_eq_ok rendered).1] at index
      exact render_module_ne_index made (kept.unique index)
    · intro free
      exact hasFile_of_writeFiles plain completed (get?_files_index free)
  · rw [← apart, Package.files, List.map_cons, List.nodup_cons, List.map_map]
    exact and_iff_left (nodup_fileNames accepted rendered)

def frames (name : String) : Idl :=
  ⟨none, none, [⟨name, .struct [⟨"level", .primitive (.unsigned .w8)⟩]⟩]⟩

def catalogOfFrames (name : String) : Catalog :=
  ⟨⟨(frames name).types⟩, (frames name).types.map TypeDef.layout⟩

theorem hasFile_of_render_frame :
    ∃ package written, (catalogOfFrames "Frame").render .standard = .ok package ∧
      (writeFiles Memory.host "out" package.files).runIn ⟨[], [], ""⟩ = (.ok (), written) ∧
      (∀ module ∈ package.modules,
        written.HasFile (joinFile "out" module.fileName) module.source.render) ∧
      written.HasFile "out/mod.rs" package.index.render := by
  refine ⟨_, _, rfl, rfl, ?_⟩
  obtain ⟨modules, index, -⟩ := @hasFile_of_render (frames "Frame") (catalogOfFrames "Frame")
    .standard _ ⟨[], [], ""⟩ _ "out" rfl rfl rfl
  exact ⟨modules, index.2 (by decide)⟩

/-- The second of two files of one name finds the first one in its place. -/
theorem exists_writeFiles_twice (first second : String) : ∃ written,
    (writeFiles Memory.host "out" [("mod.rs", first), ("mod.rs", second)]).runIn ⟨[], [], ""⟩ =
      (.ok (), written) ∧ written.readFile "out/mod.rs" = .ok second := by
  have made : Memory.makeDirectories ⟨[], [], ""⟩ "out" = .ok ⟨[], [["out"]], ""⟩ := rfl
  have once : Memory.writeFile ⟨[], [["out"]], ""⟩ (joinFile "out" "mod.rs") first =
      .ok ⟨[(["out", "mod.rs"], first)], [["out"]], ""⟩ := rfl
  have again : Memory.writeFile ⟨[(["out", "mod.rs"], first)], [["out"]], ""⟩
      (joinFile "out" "mod.rs") second = .ok _ :=
    (@Memory.writeFile_eq_ok _ _ second "mod.rs" ["out"] _ rfl).2 ⟨["out"], rfl, nofun, rfl⟩
  refine ⟨_, runIn_writeFiles.2 ⟨_, made, bind_eq_ok.2 ⟨_, once, bind_eq_ok.2 ⟨_, again, rfl⟩⟩⟩, ?_⟩
  have has := Memory.hasFile_of_writeFile isPlainName_index again
  exact (Memory.readFile_eq_ok (by decide) (by decide)).2 has

/-- A type that is called like the index takes its file: the index is lost. -/
theorem not_hasFile_of_render_mod :
    ∃ package written, ofIdl (frames "Mod") = .ok (catalogOfFrames "Mod") ∧
      (catalogOfFrames "Mod").render .standard = .ok package ∧
      (writeFiles Memory.host "out" package.files).runIn ⟨[], [], ""⟩ = (.ok (), written) ∧
      package.files.map Prod.fst = ["mod.rs", "mod.rs"] ∧
      written.readFile "out/mod.rs" ≠ .ok package.index.render := by
  obtain ⟨module, made⟩ : ∃ module, (catalogOfFrames "Mod").renderModule .standard
      ⟨"Mod", .struct [⟨"level", .primitive (.unsigned .w8)⟩]⟩ = .ok module := ⟨_, rfl⟩
  have different := render_module_ne_index made
  have rendered : (catalogOfFrames "Mod").render .standard =
      .ok ⟨[module], (catalogOfFrames "Mod").renderIndex .standard⟩ :=
    bind_eq_ok.2 ⟨[module], mapM_eq_ok.2 (.cons made .nil), rfl⟩
  generalize (catalogOfFrames "Mod").renderIndex .standard = index at different rendered
  have called : module.fileName = "mod.rs" := by
    rw [Module.fileName, (renderModule_eq_ok made).1]
    rfl
  have files : Package.files ⟨[module], index⟩ =
      [("mod.rs", index.render), ("mod.rs", module.source.render)] := by
    rw [Package.files, List.map_singleton, called]
  obtain ⟨written, completed, read⟩ := exists_writeFiles_twice index.render module.source.render
  refine ⟨_, written, rfl, rendered, files ▸ completed, congrArg (List.map Prod.fst) files, ?_⟩
  rw [read]
  exact fun same => different (Except.ok.inj same)

end Catalog

end WireSchema
