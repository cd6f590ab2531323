import WireSchema.Schema.Basic

/-! References between definitions: every name that occurs in a field type, and those reached
through fixed arrays alone, which are contained by value. -/

namespace WireSchema

namespace FieldType

def references : FieldType → List String
  | primitive _ => []
  | vec item | option item | array item _ => item.references
  | hashMap key value => key.references ++ value.references
  | defined name => [name]

/-- Names that a value of the type contains without indirection. -/
def contained : FieldType → List String
  | array item _ => item.contained
  | defined name => [name]
  | _ => []

end FieldType

def TypeBody.positions : TypeBody → List (String × FieldType)
  | struct fields => fields.map fun field => (field.name, field.type)
  | enum variants => variants.flatMap fun variant =>
      variant.shape.members.map fun member => (variant.name ++ "." ++ member.name, member.type)

def TypeBody.references (body : TypeBody) : List String :=
  body.positions.flatMap fun position => position.2.references

def TypeBody.contained (body : TypeBody) : List String :=
  body.positions.flatMap fun position => position.2.contained

/-- A search along references: the names that were met, and those that wait, the next one first.
A name may wait more than once. -/
structure Worklist where
  seen : List String
  todo : List String
  deriving DecidableEq, Repr

namespace Worklist

/-- Takes the name that came last. If it is new, its references wait from then on. -/
def step (next : String → List String) (work : Worklist) : Worklist :=
  match work.todo with
  | [] => work
  | name :: todo =>
    if work.seen.contains name then { work with todo }
    else ⟨name :: work.seen, (next name).reverse ++ todo⟩

def run (next : String → List String) : Nat → Worklist → Worklist
  | 0, work => work
  | steps + 1, work => if work.todo.isEmpty then work else run next steps (work.step next)

end Worklist

end WireSchema
