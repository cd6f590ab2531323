import Mathlib.Data.List.Basic
import Mathlib.Data.List.Flatten
import Mathlib.Logic.Function.Iterate
import WireSchema.Proofs.Schema.WellFormed

/-! Reachability along references. All names that a search has met or that wait are reached, and
what was met refers to no others; so in the end, when no name waits, exactly the reached ones were
met. The end comes because the references of a definition are entered once. -/

namespace WireSchema

open Relation

/-- A name occurs in a part of a definition, under whatever containers. -/
def DependsOn (types : List TypeDef) (owner name : String) : Prop :=
  ∃ type ∈ types, type.name = owner ∧ ∃ part, type.body.HasPart part ∧ part.Mentions name

namespace Worklist

variable {next : String → List String} {source : String} {work : Worklist}

def Knows (work : Worklist) (name : String) : Prop :=
  name ∈ work.seen ∨ name ∈ work.todo

theorem step_of_seen {name : String} {seen todo : List String} (met : name ∈ seen) :
    step next ⟨seen, name :: todo⟩ = ⟨seen, todo⟩ :=
  if_pos (List.contains_iff_mem.2 met)

theorem step_of_fresh {name : String} {seen todo : List String} (fresh : name ∉ seen) :
    step next ⟨seen, name :: todo⟩ = ⟨name :: seen, (next name).reverse ++ todo⟩ :=
  if_neg (mt List.contains_iff_mem.1 fresh)

/-- A step forgets no name, and it learns no others than the successors of a name that it meets. -/
theorem knows_step {other : String} : (work.step next).Knows other ↔ work.Knows other ∨
    ∃ name todo, work.todo = name :: todo ∧ name ∉ work.seen ∧ other ∈ next name := by
  obtain ⟨seen, todo⟩ := work
  cases todo with
  | nil => simp [step]
  | cons name todo =>
    by_cases met : name ∈ seen
    · rw [step_of_seen met]
      simp only [Knows, List.mem_cons, List.cons.injEq]
      grind
    · rw [step_of_fresh met]
      simp only [Knows, List.mem_cons, List.mem_append, List.mem_reverse, List.cons.injEq]
      grind

theorem mem_seen_step {other : String} (met : other ∈ (work.step next).seen) :
    other ∈ work.seen ∨ ∃ todo, work.todo = other :: todo := by
  obtain ⟨seen, todo⟩ := work
  cases todo with
  | nil => exact .inl met
  | cons name todo =>
    by_cases known : name ∈ seen
    · rw [step_of_seen known] at met
      exact .inl met
    · rw [step_of_fresh known] at met
      rcases List.mem_cons.1 met with rfl | before
      · exact .inr ⟨todo, rfl⟩
      · exact .inl before

structure Explores (next : String → List String) (source : String) (work : Worklist) : Prop where
  reached : ∀ name, work.Knows name → TransGen (fun owner name => name ∈ next owner) source name
  start : ∀ name ∈ next source, work.Knows name
  onward : ∀ owner ∈ work.seen, ∀ name ∈ next owner, work.Knows name

theorem explores_start (next : String → List String) (source : String) :
    Explores next source ⟨[], (next source).reverse⟩ where
  reached := by
    intro name knows
    apply TransGen.single
    simpa [Knows] using knows
  start := by
    intro name reference
    exact .inr (List.mem_reverse.2 reference)
  onward := by
    intro owner met
    cases met

theorem Explores.step (explores : Explores next source work) :
    Explores next source (work.step next) where
  reached := by
    intro other knows
    rcases knows_step.1 knows with before | ⟨name, todo, waits, -, reference⟩
    · exact explores.reached other before
    · have known : work.Knows name := .inr (waits ▸ List.mem_cons_self)
      exact (explores.reached name known).tail reference
  start := by
    intro name reference
    exact knows_step.2 (.inl (explores.start name reference))
  onward := by
    intro owner met name reference
    by_cases before : owner ∈ work.seen
    · exact knows_step.2 (.inl (explores.onward owner before name reference))
    · rcases mem_seen_step met with seen | ⟨todo, waits⟩
      · exact absurd seen before
      · exact knows_step.2 (.inr ⟨owner, todo, waits, before, reference⟩)

theorem run_eq_iterate (steps : Nat) : work.run next steps = (step next)^[steps] work := by
  induction steps generalizing work with
  | zero => rfl
  | succ steps ih =>
    rw [Function.iterate_succ_apply, run]
    by_cases ended : work.todo.isEmpty
    · have still : work.step next = work := by
        rw [Worklist.step, List.isEmpty_iff.1 ended]
      rw [if_pos ended, still, Function.iterate_fixed still]
    · rw [if_neg ended, ih]

theorem Explores.run (explores : Explores next source work) (steps : Nat) :
    Explores next source (work.run next steps) := by
  rw [run_eq_iterate]
  induction steps with
  | zero => exact explores
  | succ steps ih =>
    rw [Function.iterate_succ_apply']
    exact ih.step

/-- When no name waits, every chain has been followed. -/
theorem Explores.mem_seen_iff (explores : Explores next source work) (ended : work.todo = [])
    {target : String} :
    target ∈ work.seen ↔ TransGen (fun owner name => name ∈ next owner) source target := by
  have met {name : String} (knows : work.Knows name) : name ∈ work.seen := by
    rcases knows with seen | waits
    · exact seen
    · rw [ended] at waits
      cases waits
  constructor
  · intro seen
    exact explores.reached target (.inl seen)
  · intro chain
    induction chain with
    | single reference => exact met (explores.start _ reference)
    | tail _ reference ih => exact met (explores.onward _ ih _ reference)

end Worklist

namespace Table

variable {table : Table}

def Refers (table : Table) (owner name : String) : Prop :=
  name ∈ table.references owner

/-! ## The end of a search -/

def unentered (types : List TypeDef) (seen : List String) : Nat :=
  ((types.filter fun type => type.name ∉ seen).flatMap fun type => type.body.references).length

theorem unentered_cons_met {seen : List String} (types : List TypeDef) (type : TypeDef)
    (met : type.name ∈ seen) : unentered (type :: types) seen = unentered types seen := by
  simp [unentered, met]

theorem unentered_cons_fresh {seen : List String} (types : List TypeDef) (type : TypeDef)
    (fresh : type.name ∉ seen) :
    unentered (type :: types) seen = type.body.references.length + unentered types seen := by
  simp [unentered, fresh, List.flatMap_cons]

theorem unentered_cons_le (types : List TypeDef) (seen : List String) (name : String) :
    unentered types (name :: seen) ≤ unentered types seen := by
  have fewer : (types.filter fun type => type.name ∉ name :: seen).Sublist
      (types.filter fun type => type.name ∉ seen) :=
    List.monotone_filter_right types fun type => by simp
  exact (fewer.flatMap fun type => type.body.references).length_le

/-- A definition is entered at the cost of its references. -/
theorem references_add_unentered_le (types : List TypeDef) {seen : List String} {name : String}
    (fresh : name ∉ seen) :
    ((Table.mk types).references name).length + unentered types (name :: seen) ≤
      unentered types seen := by
  induction types with
  | nil => exact Nat.le_refl 0
  | cons type rest ih =>
    have others := unentered_cons_le rest seen name
    by_cases same : type.name = name
    · subst same
      have found : (Table.mk (type :: rest)).references type.name = type.body.references := by
        simp [references, namesOf, find?]
      rw [found, unentered_cons_met rest type (List.mem_cons_self ..),
        unentered_cons_fresh rest type fresh]
      omega
    · have found : (Table.mk (type :: rest)).references name = (Table.mk rest).references name := by
        simp [references, namesOf, find?, same]
      rw [found]
      by_cases met : type.name ∈ seen
      · rw [unentered_cons_met rest type met,
          unentered_cons_met rest type (List.mem_cons_of_mem name met)]
        exact ih
      · have fresh' : type.name ∉ name :: seen := by simp [same, met]
        rw [unentered_cons_fresh rest type met, unentered_cons_fresh rest type fresh']
        omega

def pending (table : Table) (work : Worklist) : Nat :=
  work.todo.length + unentered table.types work.seen

theorem pending_step {work : Worklist} (waits : work.todo ≠ []) :
    table.pending (work.step table.references) < table.pending work := by
  obtain ⟨seen, todo⟩ := work
  cases todo with
  | nil => exact absurd rfl waits
  | cons name todo =>
    by_cases met : name ∈ seen
    · simp [Worklist.step_of_seen met, pending]
    · have entered : (table.references name).length + unentered table.types (name :: seen) ≤
          unentered table.types seen := references_add_unentered_le table.types met
      simp only [Worklist.step_of_fresh met, pending, List.length_append, List.length_reverse,
        List.length_cons]
      omega

theorem todo_run {steps : Nat} {work : Worklist} (enough : table.pending work ≤ steps) :
    (work.run table.references steps).todo = [] := by
  induction steps generalizing work with
  | zero =>
    unfold pending at enough
    exact List.length_eq_zero_iff.1 (by simp only [Worklist.run]; omega)
  | succ steps ih =>
    rw [Worklist.run]
    by_cases ended : work.todo.isEmpty
    · rw [if_pos ended]
      exact List.isEmpty_iff.1 ended
    · rw [if_neg ended]
      have less : table.pending (work.step table.references) < table.pending work :=
        pending_step (mt List.isEmpty_iff.2 ended)
      exact ih (by omega)

theorem todo_search (table : Table) (source : String) : (table.search source).todo = [] := by
  apply todo_run
  simp [pending, unentered, referenceCount]

/-- A search finds every chain of references, and nothing else. -/
theorem reaches_iff {source target : String} :
    table.reaches source target = true ↔ TransGen table.Refers source target :=
  List.contains_iff_mem.trans <|
    ((Worklist.explores_start table.references source).run _).mem_seen_iff (todo_search table source)

/-! ## References of definitions -/

theorem refers_iff {types : List TypeDef} (names : (Table.mk types).HasNames)
    {owner name : String} : (Table.mk types).Refers owner name ↔ DependsOn types owner name := by
  simp only [Refers, references, names.mem_namesOf_iff, TypeBody.mem_references, DependsOn]

/-- The search of an accepted table comes to its end and has then found the chains of one or more
references. A reference needs indirection if and only if a chain leads back from its end. -/
theorem reaches_exact {types : List TypeDef} (accepted : ofTypes types = .ok table) :
    (∀ source, ∃ steps,
      table.search source =
        (Worklist.step table.references)^[steps] ⟨[], (table.references source).reverse⟩ ∧
      (table.search source).todo = []) ∧
    (∀ source target,
      table.reaches source target = true ↔ TransGen (DependsOn types) source target) ∧
    (∀ source middle target, table.reaches source middle = true →
      table.reaches middle target = true → table.reaches source target = true) ∧
    ∀ owner name, DependsOn types owner name →
      (table.needsIndirection owner name = true ↔ ReflTransGen (DependsOn types) name owner) := by
  obtain ⟨rfl, names⟩ := ofTypes_eq_ok accepted
  have same : (Table.mk types).Refers = DependsOn types := by
    funext owner name
    exact propext (refers_iff names)
  have chains (source target : String) : (Table.mk types).reaches source target = true ↔
      TransGen (DependsOn types) source target := same ▸ reaches_iff
  refine ⟨fun source => ?ends, chains, fun source middle target => ?transitive,
    fun owner name _ => ?closes⟩
  case ends => exact ⟨_, Worklist.run_eq_iterate _, todo_search _ source⟩
  case transitive =>
    simp only [chains]
    exact TransGen.trans
  case closes =>
    unfold needsIndirection
    rw [Bool.or_eq_true, decide_eq_true_iff, chains, reflTransGen_iff_eq_or_transGen]

def folders : List TypeDef :=
  [⟨"Folder", .struct [⟨"entries", .hashMap (.primitive .string) (.vec (.defined "Entry"))⟩]⟩,
   ⟨"Entry", .enum [⟨"File", .named [⟨"stamp", .defined "Stamp"⟩]⟩,
    ⟨"Folder", .tuple [.option (.defined "Folder")]⟩]⟩,
   ⟨"Stamp", .struct [⟨"seconds", .primitive (.signed .w64)⟩]⟩]

theorem reaches_exact_folders :
    ofTypes folders = .ok ⟨folders⟩ ∧ TransGen (DependsOn folders) "Folder" "Stamp" ∧
      ReflTransGen (DependsOn folders) "Folder" "Entry" ∧
      ¬ReflTransGen (DependsOn folders) "Stamp" "Entry" := by
  have accepted : ofTypes folders = .ok ⟨folders⟩ := by decide
  obtain ⟨-, chains, -, closes⟩ := reaches_exact accepted
  have back : DependsOn folders "Entry" "Folder" :=
    ⟨_, .tail _ (.head _), rfl, _, .element (.tail _ (.head _)) rfl (.head _), .option (.defined _)⟩
  have stamp : DependsOn folders "Entry" "Stamp" :=
    ⟨_, .tail _ (.head _), rfl, _, .field (.variant (.head _) rfl) (.head _), .defined _⟩
  refine ⟨accepted, (chains _ _).1 (by decide), (closes _ _ back).1 (by decide), ?_⟩
  exact mt (closes _ _ stamp).2 (by decide)

end Table

end WireSchema
