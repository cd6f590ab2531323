import Mathlib.Data.List.Forall2

/-! Results of computations that may fail, seen from where they succeed and from where they
fail. -/

namespace WireSchema

namespace Outcome

theorem bind_eq_ok {result : Except ε α} {next : α → Except ε β} {value : β} :
    (result >>= next) = .ok value ↔ ∃ middle, result = .ok middle ∧ next middle = .ok value := by
  cases result with
  | error error => simp [bind, Except.bind]
  | ok middle => simp [bind, Except.bind]

theorem then_eq_ok {check : Except ε Unit} {next : Except ε α} {value : α} :
    (check >>= fun _ => next) = .ok value ↔ check = .ok () ∧ next = .ok value := by
  cases check with
  | error error => simp [bind, Except.bind]
  | ok done => simp [bind, Except.bind]

/-- A step behind a guard. -/
theorem guard_eq_ok {bad : Prop} [Decidable bad] {error : ε} {next : Unit → Except ε α}
    {value : α} :
    (if bad then throw error >>= next else next ()) = .ok value ↔ ¬bad ∧ next () = .ok value := by
  by_cases met : bad
  · simp [met, throw, throwThe, MonadExceptOf.throw, bind, Except.bind]
  · simp [met]

theorem map_eq_ok {result : Except ε α} {f : α → β} {value : β} :
    result.map f = .ok value ↔ ∃ middle, result = .ok middle ∧ f middle = value := by
  cases result <;> simp [Except.map]

theorem mapError_eq_ok {result : Except ε α} {f : ε → ε'} {value : α} :
    result.mapError f = .ok value ↔ result = .ok value := by
  cases result <;> simp [Except.mapError]

theorem pure_eq_ok {value value' : α} :
    (pure value : Except ε α) = .ok value' ↔ value = value' :=
  Except.ok.injEq value value' ▸ Iff.rfl

/-- What is made of a result takes nothing away from it. -/
theorem exists_bind_pure {result : Except ε α} {f : α → β} :
    (∃ value, (result >>= fun middle => pure (f middle)) = .ok value) ↔
      ∃ middle, result = .ok middle := by
  cases result with
  | error error => simp [bind, Except.bind]
  | ok middle => simp [bind, Except.bind, pure, Except.pure]

theorem mapM_eq_ok {step : α → Except ε β} {items : List α} {values : List β} :
    items.mapM step = .ok values ↔
      List.Forall₂ (fun item value => step item = .ok value) items values := by
  induction items generalizing values with
  | nil => cases values <;> simp [pure_eq_ok]
  | cons item items ih =>
    rw [List.mapM_cons, bind_eq_ok]
    constructor
    · rintro ⟨value, first, rest⟩
      obtain ⟨others, remaining, same⟩ := bind_eq_ok.1 rest
      rw [← pure_eq_ok.1 same]
      exact .cons first (ih.1 remaining)
    · intro all
      cases all with
      | cons first rest => exact ⟨_, first, bind_eq_ok.2 ⟨_, ih.2 rest, rfl⟩⟩

/-- What a step decides about its value is known of all values of a pass. -/
theorem map_of_mapM {step : α → Except ε β} {known : β → γ} {decided : α → γ} {items : List α}
    {values : List β} (only : ∀ item value, step item = .ok value → known value = decided item)
    (done : items.mapM step = .ok values) : values.map known = items.map decided := by
  have all : List.Forall₂ (fun item value => decided item = known value) items values :=
    (mapM_eq_ok.1 done).imp fun item value made => (only item value made).symm
  have same := List.forall₂_map_left_iff.2 (List.forall₂_map_right_iff.2 all)
  exact (List.forall₂_eq_eq_eq ▸ same : items.map decided = values.map known).symm

/-- A pass over a list whose steps can only give one value. -/
theorem mapM_eq_map {step : α → Except ε β} {value : α → β} {items : List α} {values : List β}
    (only : ∀ item result, step item = .ok result → result = value item)
    (done : items.mapM step = .ok values) : values = items.map value := by
  have same := @map_of_mapM _ _ _ _ step id value items values only done
  rwa [List.map_id] at same

theorem mapM_of_forall {step : α → Except ε β} {value : α → β} {items : List α}
    (each : ∀ item ∈ items, step item = .ok (value item)) :
    items.mapM step = .ok (items.map value) := by
  induction items with
  | nil => rfl
  | cons item items ih =>
    obtain ⟨first, others⟩ := List.forall_mem_cons.1 each
    exact mapM_eq_ok.2 (.cons first (mapM_eq_ok.1 (ih others)))

theorem exists_of_mapM {step : α → Except ε β} {items : List α} {values : List β} {item : α}
    (done : items.mapM step = .ok values) (member : item ∈ items) :
    ∃ value, step item = .ok value := by
  have all := mapM_eq_ok.1 done
  clear done
  induction all with
  | nil => cases member
  | cons first _ ih =>
    cases member with
    | head => exact ⟨_, first⟩
    | tail _ member => exact ih member

theorem exists_mem_of_mapM {step : α → Except ε β} {items : List α} {values : List β} {value : β}
    (done : items.mapM step = .ok values) (member : value ∈ values) :
    ∃ item ∈ items, step item = .ok value := by
  have all := mapM_eq_ok.1 done
  clear done
  induction all with
  | nil => cases member
  | cons first _ ih =>
    obtain rfl | below := List.mem_cons.1 member
    · exact ⟨_, List.mem_cons_self, first⟩
    · obtain ⟨item, inside, made⟩ := ih below
      exact ⟨item, List.mem_cons_of_mem _ inside, made⟩

theorem exists_mapM {step : α → Except ε β} {items : List α} :
    (∃ values, items.mapM step = .ok values) ↔ ∀ item ∈ items, ∃ value, step item = .ok value := by
  constructor
  · rintro ⟨values, done⟩ item member
    exact exists_of_mapM done member
  · intro each
    induction items with
    | nil => exact ⟨[], rfl⟩
    | cons item items ih =>
      obtain ⟨⟨value, first⟩, others⟩ := List.forall_mem_cons.1 each
      obtain ⟨values, rest⟩ := ih others
      exact ⟨value :: values, mapM_eq_ok.2 (.cons first (mapM_eq_ok.1 rest))⟩

/-! ## Failure -/

theorem bind_eq_error {result : Except ε α} {next : α → Except ε β} {error : ε} :
    (result >>= next) = .error error ↔
      result = .error error ∨ ∃ middle, result = .ok middle ∧ next middle = .error error := by
  cases result with
  | error other => simp [bind, Except.bind]
  | ok middle => simp [bind, Except.bind]

theorem then_eq_error {check : Except ε Unit} {next : Except ε α} {error : ε} :
    (check >>= fun _ => next) = .error error ↔
      check = .error error ∨ check = .ok () ∧ next = .error error := by
  cases check with
  | error other => simp [bind, Except.bind]
  | ok done => simp [bind, Except.bind]

theorem guard_eq_error {bad : Prop} [Decidable bad] {fault error : ε} {next : Unit → Except ε α} :
    (if bad then throw fault >>= next else next ()) = .error error ↔
      bad ∧ fault = error ∨ ¬bad ∧ next () = .error error := by
  by_cases met : bad
  · simp [met, throw, throwThe, MonadExceptOf.throw, bind, Except.bind]
  · simp [met]

/-- A walk along a list stops at the first step that fails. -/
theorem exists_of_foldlM_eq_error {step : β → α → Except ε β} {items : List α} {state : β}
    {error : ε} (failed : items.foldlM step state = .error error) :
    ∃ item ∈ items, ∃ state', step state' item = .error error := by
  induction items generalizing state with
  | nil => cases failed
  | cons item rest ih =>
    rw [List.foldlM_cons] at failed
    rcases bind_eq_error.1 failed with here | ⟨middle, -, below⟩
    · exact ⟨item, List.mem_cons_self, state, here⟩
    · obtain ⟨other, member, found⟩ := ih below
      exact ⟨other, List.mem_cons_of_mem item member, found⟩

end Outcome

end WireSchema
