/-! Records: values under string keys, in the order of insertion. Every key stands once
when a record is built by `insert`, which keeps the first position and the last value. -/

namespace WireSchema

/-- A walk that meets the items of a list one after the other is a fold. -/
theorem eq_foldr_of_cons (walk : List α → β) {step : α → β → β} {start : β}
    (nil : walk [] = start) (cons : ∀ item rest, walk (item :: rest) = step item (walk rest))
    (items : List α) : walk items = items.foldr step start := by
  induction items with
  | nil => exact nil
  | cons item rest ih => rw [cons, ih, List.foldr_cons]

theorem eq_map_of_cons {walk : List α → List β} {step : α → β} (nil : walk [] = [])
    (cons : ∀ item rest, walk (item :: rest) = step item :: walk rest) (items : List α) :
    walk items = items.map step :=
  (eq_foldr_of_cons walk nil cons items).trans List.map_eq_foldr.symm

theorem eq_all_of_cons {walk : List α → Bool} {test : α → Bool} (nil : walk [] = true)
    (cons : ∀ item rest, walk (item :: rest) = (test item && walk rest)) (items : List α) :
    walk items = items.all test :=
  (eq_foldr_of_cons walk nil cons items).trans
    (eq_foldr_of_cons (List.all · test) rfl (fun _ _ => rfl) items).symm

theorem eq_any_of_cons {walk : List α → Bool} {test : α → Bool} (nil : walk [] = false)
    (cons : ∀ item rest, walk (item :: rest) = (test item || walk rest)) (items : List α) :
    walk items = items.any test :=
  (eq_foldr_of_cons walk nil cons items).trans
    (eq_foldr_of_cons (List.any · test) rfl (fun _ _ => rfl) items).symm

abbrev Record (α : Type) := List (String × α)

namespace Record

def get? (record : Record α) (key : String) : Option α :=
  List.lookup key record

def keys (record : Record α) : List String :=
  record.map Prod.fst

def insert : Record α → String → α → Record α
  | [], key, value => [(key, value)]
  | (key', value') :: rest, key, value =>
    if key' = key then (key, value) :: rest else (key', value') :: insert rest key value

def ofList (entries : List (String × α)) : Record α :=
  entries.foldl (fun record entry => insert record entry.1 entry.2) []

theorem get?_cons (key' : String) (value : α) (rest : Record α) (key : String) :
    get? ((key', value) :: rest) key = if key' = key then some value else get? rest key := by
  by_cases same : key' = key
  · simp [get?, same]
  · have other : (key == key') = false := by simpa using Ne.symm same
    simp [get?, List.lookup_cons, same, other]

theorem get?_map (change : α → β) (record : Record α) (key : String) :
    get? (record.map fun entry => (entry.1, change entry.2)) key =
      (get? record key).map change := by
  induction record with
  | nil => rfl
  | cons entry rest ih =>
    obtain ⟨key', value⟩ := entry
    rw [List.map_cons, get?_cons, get?_cons, ih, apply_ite (Option.map change), Option.map_some]

theorem keys_map (change : α → β) (record : Record α) :
    keys (record.map fun entry => (entry.1, change entry.2)) = keys record := by
  rw [keys, List.map_map]
  rfl

/-- An insertion shows under its own key alone. -/
theorem get?_insert (record : Record α) (key : String) (value : α) (other : String) :
    get? (insert record key value) other =
      if key = other then some value else get? record other := by
  induction record with
  | nil => simp [insert, get?_cons]
  | cons entry rest ih =>
    obtain ⟨key', value'⟩ := entry
    by_cases same : key' = key
    · subst same
      by_cases hit : key' = other <;> simp [insert, get?_cons, hit]
    · by_cases hit : key' = other
      · subst hit
        simp [insert, get?_cons, same, Ne.symm same]
      · simp [insert, get?_cons, same, hit, ih]

/-- A new key goes to the end, and a known one keeps its place. -/
theorem keys_insert (record : Record α) (key : String) (value : α) :
    keys (insert record key value) =
      if key ∈ keys record then keys record else keys record ++ [key] := by
  induction record with
  | nil => simp [insert, keys]
  | cons entry rest ih =>
    obtain ⟨key', value'⟩ := entry
    by_cases same : key' = key
    · simp [insert, keys, same]
    · simp only [keys] at ih
      by_cases found : key ∈ rest.map Prod.fst <;>
        simp [insert, same, keys, ih, found, Ne.symm same]

theorem nodup_keys_insert (record : Record α) (key : String) (value : α)
    (distinct : (keys record).Nodup) : (keys (insert record key value)).Nodup := by
  rw [keys_insert]
  split
  · exact distinct
  · next fresh =>
    rw [List.nodup_append]
    refine ⟨distinct, by simp, ?_⟩
    intro a ha b hb same
    simp only [List.mem_singleton] at hb
    exact fresh (hb ▸ same ▸ ha)

theorem nodup_keys_ofList (entries : List (String × α)) : (keys (ofList entries)).Nodup := by
  suffices ∀ record : Record α, (keys record).Nodup →
      (keys (entries.foldl (fun record entry => insert record entry.1 entry.2) record)).Nodup from
    this [] List.nodup_nil
  induction entries with
  | nil => intro record distinct; exact distinct
  | cons entry rest ih =>
    intro record distinct
    exact ih _ (nodup_keys_insert record entry.1 entry.2 distinct)

theorem get?_eq_none (record : Record α) (key : String) :
    get? record key = none ↔ key ∉ keys record := by
  induction record with
  | nil => simp [get?, keys]
  | cons entry rest ih =>
    obtain ⟨key', value'⟩ := entry
    rw [get?_cons]
    by_cases same : key' = key
    · simp [same, keys]
    · simp only [keys] at ih
      simp [same, keys, ih, Ne.symm same]

end Record

end WireSchema
