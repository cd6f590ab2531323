import WireSchema.Codec.Tree
import WireSchema.Layout.Basic
import WireSchema.Proofs.Floating.Widening
import WireSchema.Proofs.Record

/-! Conditions under which bytes are found again: no NaN but the canonical one among the floats of
a tree, and no key twice in a record or an enum of a layout. -/

namespace WireSchema

namespace Tree

mutual

def floats : Tree → List Binary64
  | float x => [x]
  | option (some tree) => floats tree
  | list items => floatsOfItems items
  | map entries => floatsOfEntries entries
  | record fields => floatsOfFields fields
  | _ => []
termination_by structural tree => tree

def floatsOfItems : List Tree → List Binary64
  | [] => []
  | tree :: rest => floats tree ++ floatsOfItems rest
termination_by structural items => items

def floatsOfEntries : List (Tree × Tree) → List Binary64
  | [] => []
  | (key, value) :: rest => floats key ++ floats value ++ floatsOfEntries rest
termination_by structural entries => entries

def floatsOfFields : List (String × Tree) → List Binary64
  | [] => []
  | (_, tree) :: rest => floats tree ++ floatsOfFields rest
termination_by structural fields => fields

end

def hasCanonicalNaNs (tree : Tree) : Bool :=
  tree.floats.all Binary64.isCanonical

theorem hasCanonicalNaNs_float (x : Binary64) :
    (float x).hasCanonicalNaNs = true ↔ x.isCanonical = true := by
  simp [hasCanonicalNaNs, floats]

theorem hasCanonicalNaNs_option (tree : Tree) :
    (option (some tree)).hasCanonicalNaNs = tree.hasCanonicalNaNs := by
  simp only [hasCanonicalNaNs, floats]

theorem hasCanonicalNaNs_list (items : List Tree) :
    (list items).hasCanonicalNaNs = true ↔ ∀ item ∈ items, item.hasCanonicalNaNs = true := by
  simp only [hasCanonicalNaNs, floats]
  induction items with
  | nil => simp [floatsOfItems]
  | cons tree rest ih =>
    rw [floatsOfItems, List.all_append, Bool.and_eq_true, ih, List.forall_mem_cons]

theorem hasCanonicalNaNs_map (entries : List (Tree × Tree)) :
    (map entries).hasCanonicalNaNs = true ↔ ∀ entry ∈ entries,
      entry.1.hasCanonicalNaNs = true ∧ entry.2.hasCanonicalNaNs = true := by
  simp only [hasCanonicalNaNs, floats]
  induction entries with
  | nil => simp [floatsOfEntries]
  | cons entry rest ih =>
    rw [floatsOfEntries, List.all_append, List.all_append, Bool.and_eq_true, Bool.and_eq_true, ih,
      List.forall_mem_cons]

theorem hasCanonicalNaNs_record (fields : List (String × Tree)) :
    (record fields).hasCanonicalNaNs = true ↔
      ∀ field ∈ fields, field.2.hasCanonicalNaNs = true := by
  simp only [hasCanonicalNaNs, floats]
  induction fields with
  | nil => simp [floatsOfFields]
  | cons field rest ih =>
    rw [floatsOfFields, List.all_append, Bool.and_eq_true, ih, List.forall_mem_cons]

end Tree

namespace Layout

mutual

/-- Whether keys stand once in every record and every enum inside, as they do in ordered maps. -/
def hasDistinctKeys : Layout → Bool
  | primitive _ | defined _ => true
  | vec item | array item _ | option item => hasDistinctKeys item
  | hashMap key value => hasDistinctKeys key && hasDistinctKeys value
  | struct parts | enum parts => decide (Record.keys parts).Nodup && haveDistinctKeys parts
termination_by structural layout => layout

def haveDistinctKeys : List (String × Layout) → Bool
  | [] => true
  | (_, layout) :: rest => hasDistinctKeys layout && haveDistinctKeys rest
termination_by structural parts => parts

end

theorem haveDistinctKeys_eq_all (parts : Record Layout) :
    haveDistinctKeys parts = parts.all fun part => part.2.hasDistinctKeys :=
  eq_all_of_cons rfl (fun _ _ => rfl) parts

theorem hasDistinctKeys_of_get? {parts : Record Layout} {key : String} {layout : Layout}
    (distinct : haveDistinctKeys parts = true) (found : Record.get? parts key = some layout) :
    layout.hasDistinctKeys = true := by
  rw [haveDistinctKeys_eq_all] at distinct
  exact Record.test_of_get? distinct found

end Layout

def Registry.hasDistinctKeys (registry : Registry) : Bool :=
  Layout.haveDistinctKeys registry

end WireSchema
