import WireSchema.Proofs.Codec.NormalForm
import WireSchema.Proofs.Convert.HasTree
import WireSchema.Proofs.Layout.Synthesis
import WireSchema.Proofs.Record

/-! Normal forms of trees at a type, down to the depth that a budget allows. At each type they are
the normal forms of the parts. -/

namespace WireSchema

namespace Codec

/-- Normal forms treat the layouts of names in one way, however many names may still follow. -/
theorem normalWithin_eq (registry : Registry) (budget : Nat) (layout : Layout) (tree : Tree) :
    normalWithin registry budget layout tree =
      normalWith (fun name => normalWithin registry budget (.defined name)) layout tree := by
  cases budget with
  | zero => rfl
  | succ budget => rfl

end Codec

/-- The normal form of a tree, or the tree itself, which is what remains of one below the names
that were followed. -/
def normalTo (registry : Registry) : Nat → FieldType → Tree → Tree
  | 0, _, tree => tree
  | budget + 1, type, tree => Codec.normalWithin registry budget type.layout tree

def membersTo (registry : Registry) (budget : Nat) : List Field → Record Tree → Record Tree
  | field :: declared, entry :: trees =>
    (field.name, normalTo registry budget field.type entry.2) ::
      membersTo registry budget declared trees
  | _, _ => []

section

variable {registry : Registry}

theorem normalTo_primitive (budget : Nat) (p : Primitive) (tree : Tree) :
    normalTo registry budget (.primitive p) tree = tree ∨
      normalTo registry budget (.primitive p) tree = Codec.normalPrimitive p tree := by
  cases budget with
  | zero => exact .inl rfl
  | succ budget =>
    rw [normalTo, Codec.normalWithin_eq]
    exact .inr rfl

theorem normalTo_list (budget : Nat) (item : FieldType) (items : List Tree) :
    normalTo registry budget (.vec item) (.list items) =
        .list (items.map (normalTo registry budget item)) ∧
      ∀ length, normalTo registry budget (.array item length) (.list items) =
        .list (items.map (normalTo registry budget item)) := by
  cases budget with
  | zero =>
    have same : items.map (normalTo registry 0 item) = items := List.map_id' items
    rw [same]
    exact ⟨rfl, fun _ => rfl⟩
  | succ budget => cases budget <;> exact ⟨rfl, fun _ => rfl⟩

theorem normalTo_none (budget : Nat) (item : FieldType) :
    normalTo registry budget (.option item) (.option none) = .option none := by
  cases budget with
  | zero => rfl
  | succ budget => cases budget <;> rfl

theorem normalTo_some (budget : Nat) (item : FieldType) (tree : Tree) :
    normalTo registry budget (.option item) (.option (some tree)) =
      .option (some (normalTo registry budget item tree)) := by
  cases budget with
  | zero => rfl
  | succ budget => cases budget <;> rfl

theorem normalTo_map (budget : Nat) (key item : FieldType) (entries : List (Tree × Tree)) :
    normalTo registry budget (.hashMap key item) (.map entries) =
      .map (entries.map fun entry =>
        (normalTo registry budget key entry.1, normalTo registry budget item entry.2)) := by
  cases budget with
  | zero => exact congrArg Tree.map (List.map_id' entries).symm
  | succ budget => cases budget <;> rfl

/-- Fields that are looked up in a record which has them all come out in the order of
declaration. -/
theorem normalFields_layouts {budget : Nat} {declared : List Field} {trees record : Record Tree}
    (keys : Record.keys trees = declared.map Field.name)
    (agrees : ∀ entry ∈ trees, Record.get? record entry.1 = some entry.2) :
    Codec.normalFields (fun name => Codec.normalWithin registry budget (.defined name))
      (declared.map Field.layout) record = membersTo registry (budget + 1) declared trees := by
  induction declared generalizing trees with
  | nil => cases trees <;> rfl
  | cons field rest ih =>
    cases trees with
    | nil => cases keys
    | cons entry others =>
      obtain ⟨named, remaining⟩ := List.cons.inj keys
      obtain ⟨here, below⟩ := List.forall_mem_cons.1 agrees
      rw [named] at here
      rw [List.map_cons, Field.layout, Codec.normalFields, here, membersTo, normalTo]
      simp only
      rw [ih remaining below, ← Codec.normalWithin_eq]

theorem membersTo_zero {declared : List Field} {trees : Record Tree}
    (keys : Record.keys trees = declared.map Field.name) :
    membersTo registry 0 declared trees = trees := by
  induction declared generalizing trees with
  | nil =>
    cases trees with
    | nil => rfl
    | cons entry others => cases keys
  | cons field rest ih =>
    cases trees with
    | nil => cases keys
    | cons entry others =>
      obtain ⟨named, remaining⟩ := List.cons.inj keys
      rw [membersTo, ih remaining, ← named]
      rfl

/-- The layout of a definition is found under its name, in a registry that was made for the
table. -/
theorem normalTo_defined {table : Table} {name : String} {body : TypeBody} (budget : Nat)
    (known : table.body? name = some body) (tree : Tree) :
    normalTo (table.types.map TypeDef.layout) (budget + 2) (.defined name) tree =
      Codec.normalWithin (table.types.map TypeDef.layout) budget body.layout tree := by
  obtain ⟨type, found, rfl⟩ := Option.map_eq_some_iff.1 known
  have layout : Record.get? (table.types.map TypeDef.layout) name = some type.body.layout := by
    rw [get?_layouts, found, Option.map_some]
  simp only [normalTo, FieldType.layout, Codec.normalWithin, Codec.normalWith, layout]

theorem normalTo_struct {table : Table} {name : String} {declared : List Field}
    {trees : Record Tree} (known : table.body? name = some (.struct declared))
    (distinct : (declared.map Field.name).Nodup)
    (keys : Record.keys trees = declared.map Field.name) (budget : Nat) :
    normalTo (table.types.map TypeDef.layout) budget (.defined name) (.record trees) =
      .record (membersTo (table.types.map TypeDef.layout) (budget - 1) declared trees) := by
  match budget with
  | 0 | 1 =>
    rw [membersTo_zero keys]
    rfl
  | budget + 2 =>
    rw [normalTo_defined budget known, Codec.normalWithin_eq, TypeBody.layout, Codec.normalWith]
    refine congrArg Tree.record (normalFields_layouts keys fun entry member => ?_)
    exact Record.get?_of_mem (keys ▸ distinct) member

theorem normalPayload_layouts {named : String → Tree → Tree} {variants : List Variant}
    {kind : String} {variant : Variant}
    (found : variants.find? (fun variant => variant.name = kind) = some variant) (payload : Tree) :
    Codec.normalPayload named (variants.map Variant.layout) kind payload =
      Codec.normalWith named variant.shape.layout payload := by
  induction variants with
  | nil => cases found
  | cons first rest ih =>
    rw [List.map_cons, Variant.layout, Codec.normalPayload]
    by_cases same : first.name = kind
    · rw [List.find?_cons_of_pos (by simpa using same)] at found
      rw [if_pos same, Option.some.inj found]
    · rw [List.find?_cons_of_neg (by simpa using same)] at found
      rw [if_neg same, ih found]

theorem normalTo_enum {table : Table} {name kind : String} {variants : List Variant}
    {variant : Variant} {trees : Record Tree} (known : table.body? name = some (.enum variants))
    (found : variants.find? (fun variant => variant.name = kind) = some variant)
    (distinct : (variant.shape.members.map Field.name).Nodup)
    (keys : Record.keys trees = variant.shape.members.map Field.name) (budget : Nat) :
    normalTo (table.types.map TypeDef.layout) budget (.defined name)
        (.variant kind (.record trees)) =
      .variant kind (.record
        (membersTo (table.types.map TypeDef.layout) (budget - 1) variant.shape.members trees)) := by
  match budget with
  | 0 | 1 =>
    rw [membersTo_zero keys]
    rfl
  | budget + 2 =>
    rw [normalTo_defined budget known, Codec.normalWithin_eq, TypeBody.layout, Tree.variant,
      Codec.normalWith, normalPayload_layouts found, Shape.layout, Codec.normalWith]
    refine congrArg (Tree.variant kind ∘ Tree.record)
      (normalFields_layouts keys fun entry member => ?_)
    exact Record.get?_of_mem (keys ▸ distinct) member

end

end WireSchema
