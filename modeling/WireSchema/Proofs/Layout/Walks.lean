import Mathlib.Data.List.Chain
import WireSchema.Proofs.Layout.Size
import WireSchema.Proofs.Layout.Synthesis
import WireSchema.Proofs.Schema.WellFormed

/-! Fixed sizes of checked tables. The search for a size goes from a definition to those that it
contains without indirection, and a checked table has no cycle of them. So no name is met twice on
one way down, and the search ends. -/

namespace WireSchema

open Relation

namespace Layout

inductive Mentions (name : String) : Layout → Prop where
  | defined : Mentions name (.defined name)
  | vec : Mentions name item → Mentions name (.vec item)
  | array : Mentions name item → Mentions name (.array item length)
  | option : Mentions name item → Mentions name (.option item)
  | key : Mentions name key → Mentions name (.hashMap key value)
  | value : Mentions name value → Mentions name (.hashMap key value)
  | field {entry : String × Layout} :
    entry ∈ fields → Mentions name entry.2 → Mentions name (.struct fields)
  | payload {entry : String × Layout} :
    entry ∈ variants → Mentions name entry.2 → Mentions name (.enum variants)

/-- A way down the recursion that finds a size, as far as one follows it, with the names on it. -/
inductive Walk (registry : Registry) : Layout → List String → Prop where
  | start (layout : Layout) : Walk registry layout []
  | item : Walk registry item names → Walk registry (.array item length) names
  | field {entry : String × Layout} :
    entry ∈ fields → Walk registry entry.2 names → Walk registry (.struct fields) names
  | payload {entry : String × Layout} :
    entry ∈ variants → Walk registry entry.2 names → Walk registry (.enum variants) names
  | stop (target : String) : Walk registry (.defined target) [target]
  | hop {target : String} : Record.get? registry target = some layout →
    Walk registry layout names → Walk registry (.defined target) (target :: names)

variable {registry : Registry}

/-! ## Searches that are cut short -/

/-- The search goes on from the layout to a name where it is cut short. -/
def IsCut (registry : Registry) (named : String → Search) (layout : Layout) : Prop :=
  ∃ name, named name = none ∧
    ∀ names, Walk registry (.defined name) names → Walk registry layout names

section

variable {named : String → Search}

/- Follows the recursion of the search. -/
mutual

theorem isCut_of_sizeWith :
    (layout : Layout) → sizeWith named layout = none → IsCut registry named layout
  | .primitive _, cut => by cases cut
  | .vec _, cut => by cases cut
  | .option _, cut => by cases cut
  | .hashMap _ _, cut => by cases cut
  | .array item length, cut => by
    obtain ⟨name, stopped, onward⟩ := isCut_of_sizeWith item (Option.map_eq_none_iff.1 cut)
    exact ⟨name, stopped, fun names walk => .item (onward names walk)⟩
  | .struct fields, cut => by
    obtain ⟨entry, member, name, stopped, onward⟩ := isCut_of_sumWith fields cut
    exact ⟨name, stopped, fun names walk => .field member (onward names walk)⟩
  | .enum variants, cut => by
    obtain ⟨entry, member, name, stopped, onward⟩ := isCut_of_choiceWith variants cut
    exact ⟨name, stopped, fun names walk => .payload member (onward names walk)⟩
  | .defined name, cut => ⟨name, cut, fun _ walk => walk⟩
termination_by structural layout => layout

theorem isCut_of_sumWith : (fields : List (String × Layout)) → sumWith named fields = none →
    ∃ entry ∈ fields, IsCut registry named entry.2
  | [], cut => by cases cut
  | (key, layout) :: rest, cut => by
    unfold sumWith at cut
    split at cut
    next first => exact ⟨_, List.mem_cons_self, isCut_of_sizeWith layout first⟩
    next => cases cut
    next =>
      obtain ⟨entry, member, below⟩ := isCut_of_sumWith rest (Option.map_eq_none_iff.1 cut)
      exact ⟨entry, List.mem_cons_of_mem _ member, below⟩
termination_by structural fields => fields

theorem isCut_of_choiceWith : (variants : List (String × Layout)) →
    choiceWith named variants = none → ∃ entry ∈ variants, IsCut registry named entry.2
  | [], cut => by cases cut
  | (key, layout) :: rest, cut => by
    unfold choiceWith at cut
    split at cut
    next first => exact ⟨_, List.mem_cons_self, isCut_of_sizeWith layout first⟩
    next => cases cut
    next each _ =>
      obtain ⟨entry, member, below⟩ := isCut_of_uniformWith each rest cut
      exact ⟨entry, List.mem_cons_of_mem _ member, below⟩
termination_by structural variants => variants

theorem isCut_of_uniformWith (each : Nat) : (variants : List (String × Layout)) →
    uniformWith named each variants = none → ∃ entry ∈ variants, IsCut registry named entry.2
  | [], cut => by cases cut
  | (key, layout) :: rest, cut => by
    unfold uniformWith at cut
    split at cut
    next first => exact ⟨_, List.mem_cons_self, isCut_of_sizeWith layout first⟩
    next =>
      split at cut
      next =>
        obtain ⟨entry, member, below⟩ := isCut_of_uniformWith each rest cut
        exact ⟨entry, List.mem_cons_of_mem _ member, below⟩
      next => cases cut
termination_by structural variants => variants

end

end

/-- A search that uses up its budget went down a way with one name more. -/
theorem exists_walk_of_cut {budget : Nat} {layout : Layout}
    (cut : sizeWithin registry budget layout = none) :
    ∃ names, layout.Walk registry names ∧ names.length = budget + 1 := by
  induction budget generalizing layout with
  | zero =>
    obtain ⟨name, -, onward⟩ := isCut_of_sizeWith layout cut
    exact ⟨[name], onward _ (.stop name), rfl⟩
  | succ budget ih =>
    rw [sizeWithin_eq] at cut
    obtain ⟨name, stopped, onward⟩ := isCut_of_sizeWith layout cut
    rw [sizeOfName] at stopped
    split at stopped
    next target found =>
      obtain ⟨names, walk, counted⟩ := ih stopped
      exact ⟨name :: names, onward _ (.hop found walk), congrArg (· + 1) counted⟩
    next => cases stopped

/-- Where no way down has more names than the budget, the search comes to its end. -/
theorem sizeWithin_of_walks {budget : Nat} {layout : Layout}
    (few : ∀ names, layout.Walk registry names → names.length ≤ budget) :
    sizeWithin registry budget layout = some (layout.fixedSize registry) := by
  cases found : sizeWithin registry budget layout with
  | none =>
    obtain ⟨names, walk, counted⟩ := exists_walk_of_cut found
    have within := few names walk
    omega
  | some size => rw [fixedSize_of_ends found]

theorem Walk.mentions {layout : Layout} {name : String} {names : List String}
    (walk : layout.Walk registry (name :: names)) : layout.Mentions name := by
  generalize walked : name :: names = all at walk
  induction walk with
  | start => cases walked
  | item _ ih => exact .array (ih walked)
  | field member _ ih => exact .field member (ih walked)
  | payload member _ ih => exact .payload member (ih walked)
  | stop | hop =>
    cases walked
    exact .defined

end Layout

/-! ## Layouts of definitions -/

theorem FieldType.mem_references_of_mentions {type : FieldType} {name : String}
    (mentions : type.layout.Mentions name) : name ∈ type.references := by
  induction type with
  | primitive p => cases mentions
  | vec item ih | option item ih | array item length ih =>
    cases mentions
    next inner => exact ih inner
  | hashMap key value keyIh valueIh =>
    cases mentions with
    | key inner => exact List.mem_append_left _ (keyIh inner)
    | value inner => exact List.mem_append_right _ (valueIh inner)
  | defined other =>
    cases mentions
    exact List.mem_singleton_self name

theorem TypeBody.mem_references_of_mentions {body : TypeBody} {name : String}
    (mentions : body.layout.Mentions name) : name ∈ body.references := by
  cases body with
  | struct fields =>
    cases mentions with
    | field member inner =>
      obtain ⟨field, declared, rfl⟩ := List.mem_map.1 member
      exact mem_references_struct declared (FieldType.mem_references_of_mentions inner)
  | enum variants =>
    cases mentions with
    | payload member inner =>
      obtain ⟨variant, declared, rfl⟩ := List.mem_map.1 member
      cases inner with
      | field carried inner =>
        obtain ⟨field, inside, rfl⟩ := List.mem_map.1 carried
        exact mem_references_enum declared inside (FieldType.mem_references_of_mentions inner)

variable {registry : Registry}

theorem FieldType.mem_contained_of_walk {type : FieldType} {name : String} {names : List String}
    (walk : type.layout.Walk registry (name :: names)) : name ∈ type.contained := by
  induction type with
  | array item length ih =>
    cases walk with
    | item inner => exact ih inner
  | defined other => cases walk <;> exact List.mem_singleton_self _
  | _ => cases walk

/-- The first name on a way down from a definition is one that it contains. -/
theorem TypeBody.mem_contained_of_walk {body : TypeBody} {name : String} {names : List String}
    (walk : body.layout.Walk registry (name :: names)) : name ∈ body.contained := by
  cases body with
  | struct fields =>
    cases walk with
    | field member inner =>
      obtain ⟨field, declared, rfl⟩ := List.mem_map.1 member
      have held := FieldType.mem_contained_of_walk inner
      exact List.mem_flatMap.2 ⟨_, List.mem_map_of_mem declared, held⟩
  | enum variants =>
    cases walk with
    | payload member inner =>
      obtain ⟨variant, declared, rfl⟩ := List.mem_map.1 member
      cases inner with
      | field carried inner =>
        obtain ⟨field, inside, rfl⟩ := List.mem_map.1 carried
        have held := FieldType.mem_contained_of_walk inner
        exact List.mem_flatMap.2
          ⟨_, List.mem_flatMap.2 ⟨variant, declared, List.mem_map_of_mem inside⟩, held⟩

/-! ## Ways down -/

namespace Table

variable {table : Table}

theorem nodup_of_isChain (acyclic : table.IsAcyclic) {names : List String}
    (chain : names.IsChain table.Contains) : names.Nodup := by
  have reached : names.IsChain (TransGen table.Contains) :=
    chain.imp fun _ _ contains => .single contains
  refine (List.isChain_iff_pairwise.1 reached).imp fun {name other} leads same => ?_
  exact acyclic other (same ▸ leads)

/-- One name after another on a way down, each contains the next one. -/
theorem isChain_of_walk {layout : Layout} {names : List String}
    (walk : layout.Walk (table.types.map TypeDef.layout) names) :
    names.IsChain table.Contains := by
  induction walk with
  | start => exact .nil
  | item _ ih | field _ _ ih | payload _ _ ih => exact ih
  | stop target => exact .singleton target
  | @hop layout names target found walk ih =>
    refine List.isChain_cons.2 ⟨fun next head => ?_, ih⟩
    obtain ⟨rest, rfl⟩ : ∃ rest, names = next :: rest := List.head?_eq_some_iff.1 head
    rw [get?_layouts] at found
    obtain ⟨type, known, rfl⟩ := Option.map_eq_some_iff.1 found
    rw [Contains, contained, namesOf, known]
    exact TypeBody.mem_contained_of_walk walk

theorem IsClosed.mem_names_of_mentions (closed : table.IsClosed) {name : String} {layout : Layout}
    (found : Record.get? (table.types.map TypeDef.layout) name = some layout) {other : String}
    (mentions : layout.Mentions other) : other ∈ table.names := by
  rw [get?_layouts] at found
  obtain ⟨type, known, rfl⟩ := Option.map_eq_some_iff.1 found
  exact closed type (find?_eq_some known).1 other (TypeBody.mem_references_of_mentions mentions)

theorem IsClosed.walk_subset (closed : table.IsClosed) {layout : Layout} {names : List String}
    (walk : layout.Walk (table.types.map TypeDef.layout) names)
    (declared : ∀ name, layout.Mentions name → name ∈ table.names) : names ⊆ table.names := by
  induction walk with
  | start => exact List.nil_subset _
  | item _ ih => exact ih fun name mentions => declared name (.array mentions)
  | field member _ ih => exact ih fun name mentions => declared name (.field member mentions)
  | payload member _ ih => exact ih fun name mentions => declared name (.payload member mentions)
  | stop target => exact List.cons_subset.2 ⟨declared target .defined, List.nil_subset _⟩
  | hop found _ ih =>
    have below := ih fun other mentions => closed.mem_names_of_mentions found mentions
    exact List.cons_subset.2 ⟨declared _ .defined, below⟩

/-- A checked table has a registry, and from every layout of declared names the search for a size
ends in it: on any way down the names are distinct, so that there are at most as many of them as
definitions, and with a budget of that many names the search has its result. -/
theorem fixedSize_ends {types : List TypeDef} {table : Table}
    (accepted : ofTypes types = .ok table) :
    ∃ registry, Registry.ofTable table = .ok registry ∧
      (∀ type ∈ types, ∃ layout, Layout.ofBody table type.body = .ok layout ∧
        Record.get? registry type.name = some layout ∧
        ∀ name, layout.Mentions name → name ∈ table.names) ∧
      ∀ layout : Layout, (∀ name, layout.Mentions name → name ∈ table.names) →
        (∀ names, layout.Walk registry names → names.Nodup ∧ names.length ≤ types.length) ∧
        ∀ budget, types.length ≤ budget →
          Layout.sizeWithin registry budget layout = some (layout.fixedSize registry) := by
  obtain ⟨rfl, names, closed, acyclic⟩ := ofTypes_eq_ok_iff_checks.1 accepted
  refine ⟨_, closed.ofTable_eq_ok, fun type member => ?_, fun layout declared => ?_⟩
  · have found := get?_layouts ⟨types⟩ type.name
    rw [names.find?_of_mem member] at found
    exact ⟨_, Layout.ofBody_of_declared (closed type member), found,
      fun name => closed.mem_names_of_mentions found⟩
  · have short : ∀ met, layout.Walk (types.map TypeDef.layout) met →
        met.Nodup ∧ met.length ≤ types.length := by
      intro met walk
      have distinct := nodup_of_isChain acyclic (@isChain_of_walk ⟨types⟩ _ _ walk)
      have within := (distinct.subperm (closed.walk_subset walk declared)).length_le
      rw [Table.names, List.length_map] at within
      exact ⟨distinct, within⟩
    refine ⟨short, fun budget enough => Layout.sizeWithin_of_walks fun met walk => ?_⟩
    exact Nat.le_trans (short met walk).2 enough

def outlines : List TypeDef :=
  [⟨"Outline", .struct [⟨"corners", .array (.defined "Corner") 2⟩,
      ⟨"holes", .vec (.defined "Outline")⟩]⟩,
   ⟨"Corner", .enum [⟨"Sharp", .tuple [.defined "Spot"]⟩,
      ⟨"Round", .named [⟨"center", .defined "Spot"⟩]⟩]⟩,
   ⟨"Spot", .struct [⟨"x", .primitive (.unsigned .w8)⟩, ⟨"y", .primitive (.unsigned .w8)⟩]⟩]

theorem fixedSize_ends_outlines :
    ∃ registry, Registry.ofTable ⟨outlines⟩ = .ok registry ∧
      (∃ names, (Layout.defined "Outline").Walk registry names ∧ names.length = outlines.length ∧
        names.Nodup ∧ names.length ≤ outlines.length) ∧
      Layout.sizeWithin registry 3 (.array (.defined "Outline") 4) = some none ∧
      Layout.sizeWithin registry 3 (.array (.defined "Corner") 4) = some (some 12) := by
  obtain ⟨registry, made, -, ends⟩ := @fixedSize_ends outlines ⟨outlines⟩ rfl
  refine ⟨registry, made, ?_⟩
  have declared (target : String) (known : target ∈ (Table.mk outlines).names) (length : Nat) :
      ∀ name, (Layout.array (.defined target) length).Mentions name →
        name ∈ (Table.mk outlines).names := by
    intro name mentions
    cases mentions with
    | array inner =>
      cases inner
      exact known
  have outline := ends _ (declared "Outline" (by decide) 4)
  have corner := ends _ (declared "Corner" (by decide) 4)
  cases made
  have walk : (Layout.defined "Outline").Walk (outlines.map TypeDef.layout)
      ["Outline", "Corner", "Spot"] :=
    .hop rfl (.field List.mem_cons_self (.item (.hop rfl
      (.payload List.mem_cons_self (.field List.mem_cons_self (.stop "Spot"))))))
  exact ⟨⟨_, walk, rfl, outline.1 _ (.item walk)⟩, outline.2 3 (by decide), corner.2 3 (by decide)⟩

end Table

end WireSchema
