import Mathlib.Data.List.Nodup
import Mathlib.Data.List.Perm.Basic
import WireSchema.Record

/-! Looking up entries of records whose keys are distinct. -/

namespace WireSchema

namespace Record

theorem mem_of_get? {record : Record α} {key : String} {value : α}
    (found : get? record key = some value) : (key, value) ∈ record := by
  induction record with
  | nil => cases found
  | cons entry rest ih =>
    obtain ⟨key', value'⟩ := entry
    rw [get?_cons] at found
    split at found
    next same =>
      rw [same, Option.some.inj found]
      exact List.mem_cons_self
    next => exact List.mem_cons_of_mem _ (ih found)

theorem test_of_get? {test : α → Bool} {record : Record α} {key : String} {value : α}
    (passes : (record.all fun entry => test entry.2) = true)
    (found : get? record key = some value) : test value = true :=
  List.all_eq_true.1 passes _ (mem_of_get? found)

theorem get?_of_mem {record : Record α} {entry : String × α} (distinct : (keys record).Nodup)
    (member : entry ∈ record) : get? record entry.1 = some entry.2 := by
  induction record with
  | nil => cases member
  | cons first rest ih =>
    obtain ⟨fresh, others⟩ := List.nodup_cons.1 distinct
    rw [get?_cons]
    cases member with
    | head => exact if_pos rfl
    | tail _ member =>
      rw [if_neg, ih others member]
      intro same
      exact fresh (same ▸ List.mem_map_of_mem member)

theorem mem_keys_of_get? {record : Record α} {key : String} {value : α}
    (found : get? record key = some value) : key ∈ keys record :=
  List.mem_map_of_mem (mem_of_get? found)

theorem get?_append (record record' : Record α) (key : String) :
    get? (record ++ record') key = (get? record key).or (get? record' key) :=
  List.lookup_append

theorem get?_middle {key other : String} (different : other ≠ key) (before after : Record α)
    (value : α) : get? (before ++ (key, value) :: after) other = get? (before ++ after) other := by
  rw [get?_append, get?_append, get?_cons, if_neg (Ne.symm different)]

theorem get?_middle_self {before : Record α} {key : String} (fresh : key ∉ keys before) (value : α)
    (after : Record α) : get? (before ++ (key, value) :: after) key = some value := by
  rw [get?_append, (get?_eq_none before key).2 fresh, Option.none_or, get?_cons, if_pos rfl]

theorem get?_of_perm {record record' : Record α} (distinct : (keys record).Nodup)
    (perm : record.Perm record') (key : String) : get? record' key = get? record key := by
  have distinct' : (keys record').Nodup := (perm.map Prod.fst).nodup_iff.1 distinct
  cases found : get? record key with
  | some value => exact get?_of_mem distinct' (perm.mem_iff.1 (mem_of_get? found))
  | none =>
    rw [get?_eq_none] at found ⊢
    exact fun present => found ((perm.map Prod.fst).mem_iff.2 present)

/-- The last entry of a key is the one that stays. -/
theorem get?_ofList (entries : List (String × α)) (key : String) :
    get? (ofList entries) key = get? entries.reverse key := by
  suffices ∀ record : Record α,
      get? (entries.foldl (fun record entry => insert record entry.1 entry.2) record) key =
        get? (entries.reverse ++ record) key by
    rw [ofList, this [], List.append_nil]
  induction entries with
  | nil => intro record; rfl
  | cons entry rest ih =>
    intro record
    rw [List.foldl_cons, ih, List.reverse_cons, List.append_assoc, get?_append, get?_append,
      get?_insert, List.singleton_append, get?_cons]

/-- Distinct keys that are found one by one are all there are, if no other key may occur. -/
theorem length_eq_of_keys {record : Record α} {names : List String}
    (distinct : (keys record).Nodup) (unique : names.Nodup)
    (complete : ∀ key ∈ keys record, key ∈ names) (found : ∀ name ∈ names, name ∈ keys record) :
    record.length = names.length := by
  have same : (keys record).Perm names :=
    (List.perm_ext_iff_of_nodup distinct unique).2 fun name => ⟨complete name, found name⟩
  rw [← same.length_eq, keys, List.length_map]

theorem mem_of_mem_insert {record : Record α} {key : String} {value : α} {entry : String × α}
    (member : entry ∈ insert record key value) : entry ∈ record ∨ entry = (key, value) := by
  induction record with
  | nil => exact .inr (List.mem_singleton.1 member)
  | cons first rest ih =>
    obtain ⟨key', value'⟩ := first
    rw [insert] at member
    split at member
    next =>
      obtain new | below := List.mem_cons.1 member
      · exact .inr new
      · exact .inl (List.mem_cons_of_mem _ below)
    next =>
      obtain rfl | below := List.mem_cons.1 member
      · exact .inl List.mem_cons_self
      · exact (ih below).imp_left (List.mem_cons_of_mem _)

theorem mem_of_mem_ofList {entries : List (String × α)} {entry : String × α}
    (member : entry ∈ ofList entries) : entry ∈ entries := by
  suffices ∀ record : Record α,
      entry ∈ entries.foldl (fun record entry => insert record entry.1 entry.2) record →
        entry ∈ record ∨ entry ∈ entries from (this [] member).resolve_left List.not_mem_nil
  clear member
  induction entries with
  | nil => exact fun _ member => .inl member
  | cons first rest ih =>
    intro record member
    obtain before | below := ih _ member
    · obtain old | rfl := mem_of_mem_insert before
      · exact .inl old
      · exact .inr List.mem_cons_self
    · exact .inr (List.mem_cons_of_mem _ below)

theorem insert_of_notMem {record : Record α} {key : String} (fresh : key ∉ keys record) (value : α) :
    insert record key value = record ++ [(key, value)] := by
  induction record with
  | nil => rfl
  | cons entry rest ih =>
    obtain ⟨key', value'⟩ := entry
    rw [keys, List.map_cons, List.mem_cons, not_or] at fresh
    obtain ⟨apart, below⟩ := fresh
    rw [insert, if_neg (Ne.symm apart), ih below, List.cons_append]

/-- Entries whose keys are distinct are a record as they stand. -/
theorem ofList_eq_self {entries : List (String × α)} (distinct : (keys entries).Nodup) :
    ofList entries = entries := by
  suffices ∀ record : Record α, (keys (record ++ entries)).Nodup →
      entries.foldl (fun record entry => insert record entry.1 entry.2) record =
        record ++ entries from this [] distinct
  clear distinct
  induction entries with
  | nil => intro record _; exact (List.append_nil record).symm
  | cons entry rest ih =>
    intro record distinct
    have fresh : entry.1 ∉ keys record := fun member => by
      rw [keys, List.map_append, List.nodup_append] at distinct
      exact distinct.2.2 _ member _ List.mem_cons_self rfl
    rw [List.foldl_cons, insert_of_notMem fresh, ih _ (by simpa using distinct)]
    simp

/-- Whether a key is of interest can be asked before or after an insertion. -/
theorem filter_insert (wanted : String → Bool) (record : Record α) (key : String) (value : α) :
    (insert record key value).filter (fun entry => wanted entry.1) =
      if wanted key then insert (record.filter fun entry => wanted entry.1) key value
      else record.filter fun entry => wanted entry.1 := by
  induction record with
  | nil => by_cases asked : wanted key <;> simp [insert, asked]
  | cons entry rest ih =>
    obtain ⟨key', value'⟩ := entry
    by_cases same : key' = key
    · subst same
      by_cases asked : wanted key' <;> simp [insert, asked]
    · by_cases asked : wanted key <;> by_cases asked' : wanted key' <;>
        simp [insert, same, asked, asked', ih]

theorem filter_ofList (wanted : String → Bool) (entries : List (String × α)) :
    (ofList entries).filter (fun entry => wanted entry.1) =
      ofList (entries.filter fun entry => wanted entry.1) := by
  suffices ∀ record : Record α,
      (entries.foldl (fun record entry => insert record entry.1 entry.2) record).filter
          (fun entry => wanted entry.1) =
        (entries.filter fun entry => wanted entry.1).foldl
          (fun record entry => insert record entry.1 entry.2)
          (record.filter fun entry => wanted entry.1) from this []
  induction entries with
  | nil => intro record; rfl
  | cons entry rest ih =>
    intro record
    rw [List.foldl_cons, ih, filter_insert]
    by_cases asked : wanted entry.1
    · simp only [List.filter_cons, asked, if_true, List.foldl_cons]
    · simp only [List.filter_cons, asked, Bool.false_eq_true, if_false]

theorem get?_filter (wanted : String → Bool) (record : Record α) (key : String) :
    get? (record.filter fun entry => wanted entry.1) key =
      if wanted key then get? record key else none := by
  induction record with
  | nil => simp [get?]
  | cons entry rest ih =>
    obtain ⟨key', value⟩ := entry
    by_cases same : key' = key
    · subst same
      by_cases asked : wanted key' <;> simp [asked, get?_cons, ih]
    · by_cases asked : wanted key' <;> simp [asked, get?_cons, same, ih]

/-- The one entry of a key. -/
theorem filter_eq_singleton {record : Record α} {key : String} {value : α}
    (distinct : (keys record).Nodup) (found : get? record key = some value) :
    record.filter (fun entry => decide (entry.1 = key)) = [(key, value)] := by
  induction record with
  | nil => cases found
  | cons entry rest ih =>
    obtain ⟨key', value'⟩ := entry
    obtain ⟨fresh, others⟩ := List.nodup_cons.1 distinct
    rw [get?_cons] at found
    by_cases same : key' = key
    · subst same
      have none : rest.filter (fun entry => decide (entry.1 = key')) = [] := by
        refine List.filter_eq_nil_iff.2 fun entry member isKey => fresh ?_
        exact List.mem_map.2 ⟨entry, member, of_decide_eq_true isKey⟩
      rw [if_pos rfl] at found
      simp [none, Option.some.inj found]
    · rw [if_neg same] at found
      simp [same, ih others found]

end Record

end WireSchema
