import Mathlib.Data.List.Chain
import WireSchema.Proofs.Schema.WellFormed

/-! What the errors of a refused schema tell about its definitions. Each of them names a fault that
the definitions have, where it says. -/

namespace WireSchema

open Outcome

/-! ## Faults -/

namespace TypeBody

inductive HasPosition : TypeBody → String → FieldType → Prop where
  | field {field : Field} : field ∈ fields → HasPosition (.struct fields) field.name field.type
  | member {variant : Variant} {field : Field} : variant ∈ variants →
    variant.shape = .named fields → field ∈ fields →
    HasPosition (.enum variants) (variant.name ++ "." ++ field.name) field.type
  | element {variant : Variant} : variant ∈ variants → variant.shape = .tuple types →
    types[position]? = some type →
    HasPosition (.enum variants) (variant.name ++ "." ++ tupleKey position) type

inductive HasLabelled (name : String) : TypeBody → String → List Field → Prop where
  | struct (fields : List Field) : HasLabelled name (.struct fields) name fields
  | variant {variant : Variant} : variant ∈ variants → variant.shape = .named fields →
    HasLabelled name (.enum variants) (name ++ "::" ++ variant.name) fields

theorem HasLabelled.hasScope {name label : String} {body : TypeBody} {fields : List Field}
    (labelled : body.HasLabelled name label fields) : body.HasScope fields := by
  cases labelled with
  | struct fields => exact .struct fields
  | variant declared shape => exact .variant declared shape

theorem hasPosition_of_mem {body : TypeBody} {label : String} {part : FieldType}
    (member : (label, part) ∈ body.positions) : body.HasPosition label part := by
  cases body with
  | struct fields =>
    obtain ⟨field, declared, same⟩ := List.mem_map.1 member
    cases same
    exact .field declared
  | enum variants =>
    obtain ⟨variant, declared, below⟩ := List.mem_flatMap.1 member
    obtain ⟨field, carried, same⟩ := List.mem_map.1 below
    cases same
    cases shape : variant.shape with
    | empty =>
      rw [shape] at carried
      cases carried
    | named fields =>
      rw [shape] at carried
      exact .member declared shape carried
    | tuple types =>
      rw [shape] at carried
      obtain ⟨position, bound, rfl⟩ := List.mem_mapIdx.1 carried
      exact .element declared shape (List.getElem?_eq_getElem bound)

end TypeBody

def Declares (types : List TypeDef) (name : String) : Prop :=
  ∃ type ∈ types, type.name = name ∨ type.body.Declares name

/-- What an error says is wrong with the definitions. Nothing is said by the errors that do not come
from definitions. -/
inductive SchemaError.IsFaultOf (types : List TypeDef) : SchemaError → Prop where
  | danglingReference {type : TypeDef} : type ∈ types → type.body.HasPosition label part →
    part.Mentions missing → (∀ other ∈ types, other.name ≠ missing) →
    IsFaultOf types (.danglingReference type.name label missing)
  | unboundedRecursion : (name :: between).Nodup →
    (∀ other ∈ name :: between, ∃ type ∈ types, type.name = other) →
    List.IsChain (Encloses types) (name :: between ++ [name]) →
    IsFaultOf types (.unboundedRecursion name (name :: between ++ [name]))
  | duplicateType : 1 < (types.map TypeDef.name).count name →
    IsFaultOf types (.duplicateType name)
  | duplicateField {type : TypeDef} : type ∈ types →
    type.body.HasLabelled type.name label fields → 1 < (fields.map Field.name).count name →
    IsFaultOf types (.duplicateField label name)
  | duplicateVariant {type : TypeDef} : type ∈ types → type.body = .enum variants →
    1 < (variants.map Variant.name).count name →
    IsFaultOf types (.duplicateVariant type.name name)
  | tooManyVariants {type : TypeDef} : type ∈ types → type.body = .enum variants →
    256 < variants.length → IsFaultOf types (.tooManyVariants type.name variants.length)
  | invalidIdentifier : Declares types name → ¬IsIdentifier name →
    IsFaultOf types (.invalidIdentifier name)

namespace Table

variable {types : List TypeDef} {error : SchemaError}

/-! ## Names -/

theorem checkIdentifier_eq_error {name : String} (failed : checkIdentifier name = .error error) :
    ¬IsIdentifier name ∧ error = .invalidIdentifier name := by
  unfold checkIdentifier at failed
  split at failed
  next => cases failed
  next invalid =>
    cases failed
    exact ⟨mt isIdentifier_iff.2 invalid, rfl⟩

/-- A name that was met before the rest of a scope, and stands in the rest. -/
theorem one_lt_count_of_contains {seen rest : List String} {name : String}
    (met : seen.contains name = true) : 1 < seen.count name + (name :: rest).count name := by
  have before : 0 < seen.count name := List.count_pos_iff.2 (List.contains_iff_mem.1 met)
  rw [List.count_cons_self]
  omega

theorem count_cons_add (seen rest : List String) (head name : String) :
    (head :: seen).count name + rest.count name =
      seen.count name + (head :: rest).count name := by
  simp only [List.count_cons]
  omega

theorem checkScope_eq_error {name : α → String} {before after : α → Except SchemaError Unit}
    {duplicate : String → SchemaError} {seen : List String} {items : List α}
    (failed : checkScope name before after duplicate seen items = .error error) :
    (∃ item ∈ items, ¬IsIdentifier (name item) ∧ error = .invalidIdentifier (name item)) ∨
      (∃ other, 1 < seen.count other + (items.map name).count other ∧ error = duplicate other) ∨
      ∃ item ∈ items, before item = .error error ∨ after item = .error error := by
  induction items generalizing seen with
  | nil => cases failed
  | cons item rest ih =>
    rw [checkScope, then_eq_error, then_eq_error, guard_eq_error, then_eq_error] at failed
    rcases failed with invalid | ⟨-, inside | ⟨-, ⟨met, same⟩ | ⟨-, inside | ⟨-, below⟩⟩⟩⟩
    · exact .inl ⟨item, List.mem_cons_self, checkIdentifier_eq_error invalid⟩
    · exact .inr (.inr ⟨item, List.mem_cons_self, .inl inside⟩)
    · exact .inr (.inl ⟨name item, one_lt_count_of_contains met, same.symm⟩)
    · exact .inr (.inr ⟨item, List.mem_cons_self, .inr inside⟩)
    · rcases ih below with ⟨other, member, invalid⟩ | ⟨other, repeated, same⟩ |
        ⟨other, member, inside⟩
      · exact .inl ⟨other, List.mem_cons_of_mem item member, invalid⟩
      · rw [count_cons_add] at repeated
        exact .inr (.inl ⟨other, repeated, same⟩)
      · exact .inr (.inr ⟨other, List.mem_cons_of_mem item member, inside⟩)

/-- Of a whole scope: an item has a name that is no identifier, a name stands twice, or an item is
refused for more than its name. -/
theorem checkScope_nil_eq_error {name : α → String} {before after : α → Except SchemaError Unit}
    {duplicate : String → SchemaError} {items : List α}
    (failed : checkScope name before after duplicate [] items = .error error) :
    (∃ item ∈ items, ¬IsIdentifier (name item) ∧ error = .invalidIdentifier (name item)) ∨
      (∃ other, 1 < (items.map name).count other ∧ error = duplicate other) ∨
      ∃ item ∈ items, before item = .error error ∨ after item = .error error := by
  simpa using checkScope_eq_error failed

/-- A faulty scope, as part of the definition that it stands in. -/
theorem isFaultOf_of_checkFields {type : TypeDef} (member : type ∈ types) {label : String}
    {fields : List Field} (labelled : type.body.HasLabelled type.name label fields)
    (failed : checkFields label fields = .error error) : error.IsFaultOf types := by
  have scope : type.body.HasScope fields := labelled.hasScope
  rcases checkScope_nil_eq_error failed with ⟨field, declared, invalid, rfl⟩ |
    ⟨name, repeated, rfl⟩ | ⟨field, declared, impossible | impossible⟩
  · exact .invalidIdentifier ⟨type, member, .inr (.field scope declared)⟩ invalid
  · exact .duplicateField member labelled repeated
  · cases impossible
  · cases impossible

theorem isFaultOf_of_checkShape {type : TypeDef} (member : type ∈ types) {variants : List Variant}
    (body : type.body = .enum variants) {variant : Variant} (declared : variant ∈ variants)
    (failed : checkShape (type.name ++ "::" ++ variant.name) variant.shape = .error error) :
    error.IsFaultOf types := by
  cases shape : variant.shape with
  | named fields =>
    rw [shape] at failed
    exact isFaultOf_of_checkFields member (body ▸ .variant declared shape) failed
  | _ =>
    rw [shape] at failed
    cases failed

theorem isFaultOf_of_checkBody {type : TypeDef} (member : type ∈ types)
    (failed : checkBody type.name type.body = .error error) : error.IsFaultOf types := by
  cases body : type.body with
  | struct fields =>
    rw [body] at failed
    exact isFaultOf_of_checkFields member (body ▸ .struct fields) failed
  | enum variants =>
    rw [body, checkBody, guard_eq_error] at failed
    rcases failed with ⟨many, rfl⟩ | ⟨-, inside⟩
    · exact .tooManyVariants member body many
    · rcases checkScope_nil_eq_error inside with ⟨variant, declared, invalid, rfl⟩ |
        ⟨name, repeated, rfl⟩ | ⟨variant, declared, impossible | below⟩
      · exact .invalidIdentifier ⟨type, member, .inr (body ▸ .variant declared)⟩ invalid
      · exact .duplicateVariant member body repeated
      · cases impossible
      · exact isFaultOf_of_checkShape member body declared below

theorem isFaultOf_of_checkTypes (failed : checkTypes types = .error error) :
    error.IsFaultOf types := by
  rcases checkScope_nil_eq_error failed with ⟨type, member, invalid, rfl⟩ |
    ⟨name, repeated, rfl⟩ | ⟨type, member, inside | impossible⟩
  · exact .invalidIdentifier ⟨type, member, .inl rfl⟩ invalid
  · exact .duplicateType repeated
  · exact isFaultOf_of_checkBody member inside
  · cases impossible

/-! ## References -/

theorem isFaultOf_of_dangling? (found : (Table.mk types).dangling? = some error) :
    error.IsFaultOf types := by
  obtain ⟨type, member, inside⟩ := List.exists_of_findSome?_eq_some found
  obtain ⟨⟨label, part⟩, position, here⟩ := List.exists_of_findSome?_eq_some inside
  obtain ⟨missing, first, rfl⟩ := Option.map_eq_some_iff.1 here
  have mentions : part.Mentions missing :=
    FieldType.mem_references.1 (List.mem_of_find?_eq_some first)
  have undeclared : missing ∉ (Table.mk types).names := by
    simpa using List.find?_some first
  refine .danglingReference member (TypeBody.hasPosition_of_mem position) mentions ?_
  intro other declared same
  exact undeclared (List.mem_map.2 ⟨other, declared, same⟩)

/-! ## Containment -/

/-- The part of a list from a member on. -/
theorem exists_dropWhile_ne {name : String} {names : List String} (member : name ∈ names) :
    ∃ rest, names.dropWhile (· ≠ name) = name :: rest := by
  induction names with
  | nil => cases member
  | cons other names ih =>
    by_cases same : other = name
    · subst same
      exact ⟨names, by simp⟩
    · have below : name ∈ names := (List.mem_cons.1 member).resolve_left (Ne.symm same)
      simpa [List.dropWhile_cons, same] using ih below

variable {table : Table} {fuel : Nat} {stack : List String} {name : String}

/-- A search on its way: each name on it contains the next, and the last contains the name where
the search stands. -/
structure Follows (table : Table) (fuel : Nat) (stack : List String) (name : String) : Prop
    extends table.Stands fuel stack name where
  chain : List.IsChain table.Contains (stack ++ [name])

theorem follows_start (known : name ∈ table.names) :
    table.Follows (table.types.length + 1) [] name where
  declared := known
  way := List.nil_subset _
  distinct := List.nodup_nil
  enough := rfl
  chain := List.isChain_singleton name

theorem Follows.step (closed : table.IsClosed) (follows : table.Follows (fuel + 1) stack name)
    (fresh : name ∉ stack) {next : String} (contains : table.Contains name next) :
    table.Follows fuel (stack ++ [name]) next where
  toStands := follows.toStands.step closed fresh contains
  chain := by
    rw [List.append_assoc, List.singleton_append, List.isChain_split]
    exact ⟨follows.chain, List.isChain_pair.2 contains⟩

/-- The way since the name where the search stands once more, and back to it. -/
theorem Follows.exists_cycle (follows : table.Follows fuel stack name) (active : name ∈ stack) :
    ∃ between, stack.dropWhile (· ≠ name) = name :: between ∧ (name :: between).Nodup ∧
      name :: between ⊆ table.names ∧
      List.IsChain table.Contains (name :: between ++ [name]) := by
  obtain ⟨between, since⟩ := exists_dropWhile_ne active
  have suffix : name :: between <:+ stack := since ▸ List.dropWhile_suffix _
  refine ⟨between, since, follows.distinct.sublist suffix.sublist,
    List.Subset.trans suffix.subset follows.way, ?_⟩
  obtain ⟨before, rfl⟩ := suffix
  have chain := follows.chain
  rw [List.append_assoc] at chain
  exact chain.right_of_append

/- By induction on the fuel. An error comes from a name on the way, or from a search below. -/
theorem exists_cycle_of_visit (closed : table.IsClosed) {done : List String}
    (follows : table.Follows fuel stack name)
    (failed : table.visit fuel stack done name = .error error) :
    ∃ first between, error = .unboundedRecursion first (first :: between ++ [first]) ∧
      (first :: between).Nodup ∧ first :: between ⊆ table.names ∧
      List.IsChain table.Contains (first :: between ++ [first]) := by
  induction fuel generalizing stack done name with
  | zero => cases failed
  | succ fuel ih =>
    unfold visit at failed
    by_cases met : done.contains name
    · rw [if_pos met] at failed
      cases failed
    · rw [if_neg met] at failed
      by_cases active : stack.contains name
      · obtain ⟨between, since, cycle⟩ := follows.exists_cycle (List.contains_iff_mem.1 active)
        rw [if_pos active, since] at failed
        cases failed
        exact ⟨name, between, rfl, cycle⟩
      · rw [if_neg active] at failed
        have fresh : name ∉ stack := mt List.contains_iff_mem.2 active
        rcases bind_eq_error.1 failed with below | ⟨_, -, impossible⟩
        · obtain ⟨next, contains, _, found⟩ := exists_of_foldlM_eq_error below
          exact ih (follows.step closed fresh contains) found
        · cases impossible

theorem isFaultOf_of_checkContainment (names : (Table.mk types).HasNames)
    (closed : (Table.mk types).IsClosed)
    (failed : (Table.mk types).checkContainment = .error error) : error.IsFaultOf types := by
  rcases bind_eq_error.1 failed with searched | ⟨_, -, impossible⟩
  · obtain ⟨root, known, _, found⟩ := exists_of_foldlM_eq_error searched
    obtain ⟨first, between, rfl, distinct, declared, chain⟩ :=
      exists_cycle_of_visit closed (follows_start known) found
    refine .unboundedRecursion distinct (fun other member => ?_) ?_
    · exact List.mem_map.1 (declared member)
    · exact chain.imp fun owner name => (contains_iff names).1
  · cases impossible

/-- Definitions are only refused for a fault that they have, and the error tells which. -/
theorem isFaultOf_of_ofTypes (refused : ofTypes types = .error error) :
    error.IsFaultOf types := by
  rcases then_eq_error.1 refused with unnamed | ⟨checked, rest⟩
  · exact isFaultOf_of_checkTypes unnamed
  · have names := checkTypes_eq_ok.1 checked
    simp only at rest
    split at rest
    next dangling found =>
      cases rest
      exact isFaultOf_of_dangling? found
    next absent =>
      have closed : (Table.mk types).IsClosed :=
        dangling?_eq_none.1 (Option.eq_none_iff_forall_ne_some.2 absent)
      rcases then_eq_error.1 rest with cyclic | ⟨-, impossible⟩
      · exact isFaultOf_of_checkContainment names closed cyclic
      · cases impossible

def ring : List TypeDef :=
  [⟨"Outer", .struct [⟨"id", .primitive .publicKey⟩, ⟨"a", .defined "A"⟩]⟩,
   ⟨"A", .struct [⟨"again", .option (.defined "Outer")⟩, ⟨"b", .defined "B"⟩]⟩,
   ⟨"B", .enum [⟨"Stop", .empty⟩, ⟨"Wrap", .tuple [.array (.defined "A") 2]⟩]⟩]

theorem isFaultOf_of_ofTypes_ring :
    ofTypes ring = .error (.unboundedRecursion "A" ["A", "B", "A"]) ∧
      (SchemaError.unboundedRecursion "A" ["A", "B", "A"]).IsFaultOf ring := by
  have refused : ofTypes ring = .error (.unboundedRecursion "A" ["A", "B", "A"]) := by decide
  exact ⟨refused, isFaultOf_of_ofTypes refused⟩

end Table

end WireSchema
