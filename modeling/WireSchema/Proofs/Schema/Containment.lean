import Mathlib.Data.List.Perm.Subperm
import Mathlib.Logic.Relation
import WireSchema.Proofs.Schema.References

/-! The search for types that contain themselves. It leaves behind names from which containment
comes to an end, and it only fails where it comes back to a name on its way. -/

namespace WireSchema

open Relation Outcome

theorem FieldType.mem_references_of_contained {type : FieldType} {name : String}
    (member : name ∈ type.contained) : name ∈ type.references := by
  induction type with
  | array item length ih => exact ih member
  | defined other => exact member
  | _ => cases member

theorem TypeBody.mem_references_of_contained {body : TypeBody} {name : String}
    (member : name ∈ body.contained) : name ∈ body.references := by
  obtain ⟨position, inside, held⟩ := List.mem_flatMap.1 member
  exact List.mem_flatMap.2 ⟨position, inside, FieldType.mem_references_of_contained held⟩

/-- Nothing leads back from where every walk ends. -/
theorem not_transGen_of_acc {α : Type} {r : α → α → Prop} {a : α} (ends : Acc (flip r) a) :
    ¬TransGen r a a := by
  induction ends with
  | intro a _ ih =>
    intro cycle
    obtain ⟨b, step, back⟩ := TransGen.head'_iff.1 cycle
    exact ih b step (TransGen.tail' back step)

namespace Table

variable {table : Table}

def Contains (table : Table) (owner name : String) : Prop :=
  name ∈ table.contained owner

def IsAcyclic (table : Table) : Prop :=
  ∀ name, ¬TransGen table.Contains name name

/-- Containment comes to an end whichever way it goes on from a name. -/
def IsBounded (table : Table) (name : String) : Prop :=
  Acc (flip table.Contains) name

theorem contained_eq_nil {name : String} (undeclared : name ∉ table.names) :
    table.contained name = [] := by
  refine List.eq_nil_iff_forall_not_mem.2 fun other inside => undeclared ?_
  obtain ⟨type, member, rfl, -⟩ := mem_namesOf inside
  exact List.mem_map_of_mem member

theorem IsClosed.mem_names_of_contains (closed : table.IsClosed) {owner name : String}
    (contains : table.Contains owner name) : name ∈ table.names := by
  obtain ⟨type, member, -, inside⟩ := mem_namesOf contains
  exact closed type member name (TypeBody.mem_references_of_contained inside)

/-! ## Success -/

/-- Where a search stands: at a name, with the names on the way to it, and with a unit of fuel
for each name that is not among them. -/
structure Stands (table : Table) (fuel : Nat) (stack : List String) (name : String) : Prop where
  declared : name ∈ table.names
  way : stack ⊆ table.names
  distinct : stack.Nodup
  enough : fuel + stack.length = table.types.length + 1

theorem Stands.fuel_pos {fuel : Nat} {stack : List String} {name : String}
    (stands : table.Stands fuel stack name) : 0 < fuel := by
  have short : stack.length ≤ table.names.length :=
    (stands.distinct.subperm stands.way).length_le
  have counted : table.names.length = table.types.length := List.length_map _
  have enough := stands.enough
  omega

theorem Stands.step (closed : table.IsClosed) {fuel : Nat} {stack : List String}
    {name next : String} (stands : table.Stands (fuel + 1) stack name) (fresh : name ∉ stack)
    (contains : table.Contains name next) : table.Stands fuel (stack ++ [name]) next where
  declared := closed.mem_names_of_contains contains
  way := by
    intro other member
    rcases List.mem_append.1 member with before | last
    · exact stands.way before
    · rw [List.mem_singleton.1 last]
      exact stands.declared
  distinct := by
    rw [List.nodup_append]
    refine ⟨stands.distinct, List.nodup_singleton name, ?_⟩
    rintro other before _ last rfl
    exact fresh (List.mem_singleton.1 last ▸ before)
  enough := by
    have enough := stands.enough
    rw [List.length_append, List.length_singleton]
    omega

structure Settles (table : Table) (done done' : List String) : Prop where
  kept : done ⊆ done'
  bounded : (∀ name ∈ done, table.IsBounded name) → ∀ name ∈ done', table.IsBounded name

theorem settles_of_foldlM {step : List String → String → Except SchemaError (List String)}
    {names done done' : List String}
    (each : ∀ name ∈ names, ∀ done done', step done name = .ok done' →
      table.Settles done done' ∧ name ∈ done')
    (folded : names.foldlM step done = .ok done') :
    table.Settles done done' ∧ names ⊆ done' := by
  induction names generalizing done with
  | nil =>
    cases folded
    exact ⟨⟨List.Subset.refl _, id⟩, List.nil_subset _⟩
  | cons name rest ih =>
    obtain ⟨first, others⟩ := List.forall_mem_cons.1 each
    rw [List.foldlM_cons] at folded
    obtain ⟨middle, stepped, remaining⟩ := bind_eq_ok.1 folded
    obtain ⟨here, met⟩ := first done middle stepped
    obtain ⟨below, all⟩ := ih others remaining
    have settles : table.Settles done done' :=
      ⟨List.Subset.trans here.kept below.kept, below.bounded ∘ here.bounded⟩
    exact ⟨settles, List.cons_subset.2 ⟨below.kept met, all⟩⟩

/- By induction on the fuel. A name is done with once all names that it contains are, and then it
is bounded because they are. -/
theorem settles_of_visit (closed : table.IsClosed) {fuel : Nat} {stack done done' : List String}
    {name : String} (stands : table.Stands fuel stack name)
    (found : table.visit fuel stack done name = .ok done') :
    table.Settles done done' ∧ name ∈ done' := by
  induction fuel generalizing stack done done' name with
  | zero => exact absurd stands.fuel_pos (Nat.lt_irrefl 0)
  | succ fuel ih =>
    unfold visit at found
    by_cases met : done.contains name
    · rw [if_pos met] at found
      cases found
      exact ⟨⟨List.Subset.refl _, id⟩, List.contains_iff_mem.1 met⟩
    · rw [if_neg met] at found
      by_cases active : stack.contains name
      · rw [if_pos active] at found
        cases found
      · rw [if_neg active] at found
        obtain ⟨middle, folded, last⟩ := bind_eq_ok.1 found
        obtain rfl : name :: middle = done' := pure_eq_ok.1 last
        have fresh : name ∉ stack := mt List.contains_iff_mem.2 active
        have below := settles_of_foldlM
          (fun next contains done done' => ih (stands.step closed fresh contains)) folded
        obtain ⟨settles, all⟩ := below
        have kept := List.Subset.trans settles.kept (List.subset_cons_self name _)
        refine ⟨⟨kept, fun before => ?_⟩, List.mem_cons_self⟩
        have after := settles.bounded before
        have here : table.IsBounded name :=
          Acc.intro name fun next contains => after next (all contains)
        exact List.forall_mem_cons.2 ⟨here, after⟩

/-! ## Failure -/

theorem exists_foldlM {step : β → α → Except ε β} {items : List α}
    (each : ∀ item ∈ items, ∀ state, ∃ state', step state item = .ok state') (state : β) :
    ∃ state', items.foldlM step state = .ok state' := by
  induction items generalizing state with
  | nil => exact ⟨state, rfl⟩
  | cons item rest ih =>
    obtain ⟨first, others⟩ := List.forall_mem_cons.1 each
    obtain ⟨middle, stepped⟩ := first state
    obtain ⟨state', remaining⟩ := ih others middle
    exact ⟨state', by rw [List.foldlM_cons, stepped]; exact remaining⟩

/-- All names on the way lead to the one where the search stands, so that a return is a cycle. -/
theorem exists_visit (acyclic : table.IsAcyclic) (fuel : Nat) {stack : List String} {name : String}
    (way : ∀ other ∈ stack, TransGen table.Contains other name) (done : List String) :
    ∃ done', table.visit fuel stack done name = .ok done' := by
  induction fuel generalizing stack name done with
  | zero => exact ⟨done, rfl⟩
  | succ fuel ih =>
    unfold visit
    by_cases met : done.contains name
    · rw [if_pos met]
      exact ⟨done, rfl⟩
    · have fresh : ¬stack.contains name := by
        intro active
        exact acyclic name (way name (List.contains_iff_mem.1 active))
      rw [if_neg met, if_neg fresh]
      have below : ∀ next ∈ table.contained name, ∀ done, ∃ done',
          table.visit fuel (stack ++ [name]) done next = .ok done' := by
        intro next contains done
        apply ih
        intro other member
        rcases List.mem_append.1 member with before | last
        · exact (way other before).tail contains
        · rw [List.mem_singleton.1 last]
          exact TransGen.single contains
      obtain ⟨middle, folded⟩ := exists_foldlM below done
      exact ⟨name :: middle, bind_eq_ok.2 ⟨middle, folded, rfl⟩⟩

theorem checkContainment_eq_ok (closed : table.IsClosed) :
    table.checkContainment = .ok () ↔ table.IsAcyclic := by
  constructor
  · intro checked
    obtain ⟨done, folded, -⟩ := bind_eq_ok.1 checked
    have start (name : String) (declared : name ∈ table.names) :
        table.Stands (table.types.length + 1) [] name :=
      ⟨declared, List.nil_subset _, List.nodup_nil, rfl⟩
    have searched := settles_of_foldlM
      (fun name declared done done' => settles_of_visit closed (start name declared)) folded
    obtain ⟨settles, all⟩ := searched
    intro name
    apply not_transGen_of_acc
    by_cases declared : name ∈ table.names
    · exact settles.bounded (by simp) name (all declared)
    · refine Acc.intro name fun next contains => ?_
      have nothing : next ∈ table.contained name := contains
      rw [contained_eq_nil declared] at nothing
      cases nothing
  · intro acyclic
    have each : ∀ name ∈ table.names, ∀ done, ∃ done',
        table.visit (table.types.length + 1) [] done name = .ok done' := by
      intro name _
      exact exists_visit acyclic _ (by simp)
    obtain ⟨done, folded⟩ := exists_foldlM each []
    exact bind_eq_ok.2 ⟨done, folded, rfl⟩

end Table

end WireSchema
