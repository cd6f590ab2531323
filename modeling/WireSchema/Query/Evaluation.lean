import WireSchema.Query.Operation

/-! Evaluation of filters. Values come in order, up to a failure if there is one. -/

namespace WireSchema.Query

/-- The values of a filter, and whether a failure ends them. -/
structure Outcome where
  values : List Json
  failed : Bool
  deriving Repr

namespace Outcome

def one (value : Json) : Outcome := ⟨[value], false⟩

def none : Outcome := ⟨[], false⟩

def failure : Outcome := ⟨[], true⟩

def ofOption : Option Json → Outcome
  | some value => one value
  | .none => failure

def andThen (first second : Outcome) : Outcome :=
  if first.failed then first else ⟨first.values ++ second.values, second.failed⟩

def bind (outcome : Outcome) (next : Json → Outcome) : Outcome :=
  outcome.values.foldr (fun value rest => (next value).andThen rest) ⟨[], outcome.failed⟩

def first? (outcome : Outcome) : Option (Option Json) :=
  match outcome.values with
  | value :: _ => some (some value)
  | [] => if outcome.failed then .none else some .none

end Outcome

def isTrue : Json → Bool
  | .null | .bool false => false
  | _ => true

/-- Removes an entry; the last one takes its place. -/
def removeSwapping (members : Record Json) (key : String) : Record Json :=
  match members.getLast? with
  | none => []
  | some last =>
    if last.1 = key then members.dropLast
    else members.dropLast.map fun entry => if entry.1 = key then last else entry

/-! ## Changes of one place -/

def changeMember (members : Record Json) (name : String) (change : Json → Outcome) :
    Option Json := do
  let old := Record.get? members name
  match ← (change (old.getD .null)).first?, old with
  | some value, _ => return .object (Record.insert members name value)
  | none, some _ => return .object (removeSwapping members name)
  | none, none => return .object members

def changeItem (items : List Json) (position : Nat) (change : Json → Outcome) : Option Json := do
  match ← (change (items.getD position .null)).first? with
  | some value => return .array (items.set position value)
  | none => return .array (items.eraseIdx position)

def changeIndex (key json : Json) (change : Json → Outcome) : Option Json :=
  match json, key with
  | .object members, .string name => changeMember members name change
  | .array items, key => do
    changeItem items (← Json.position? (← key.small?) items.length) change
  | _, _ => none

def changeSlice (start stop : Option Json) (json : Json) (change : Json → Outcome) :
    Option Json := do
  let items ← json.array?
  let (first, count) ← Json.sliceRange? start stop items.length
  let old := (items.drop first).take count
  let new ← match ← (change (.array old)).first? with
    | some value => value.array?
    | none => some []
  return .array (items.take first ++ new ++ items.drop (first + count))

def changeItems (items : List Json) (change : Json → Outcome) : Option (List Json) :=
  match items with
  | [] => some []
  | item :: rest => do
    let changed := change item
    if changed.failed then none
    return changed.values ++ (← changeItems rest change)

def changeMembers (members : Record Json) (change : Json → Outcome) : Option (Record Json) :=
  match members with
  | [] => some []
  | (key, value) :: rest => do
    match ← (change value).first? with
    | some value => return (key, value) :: (← changeMembers rest change)
    | none => changeMembers rest change

def changeElements (json : Json) (change : Json → Outcome) : Option Json :=
  match json with
  | .array items => (changeItems items change).map .array
  | .object members => (changeMembers members change).map .object
  | _ => none

/-! ## Filters -/

abbrev Bindings := Record Json

def changeInTurn (outcome : Outcome) (input : Json) (change : Json → Json → Outcome) : Outcome :=
  let changed := outcome.values.foldl (fun result value => result.bind (change value)) (.one input)
  if outcome.failed then .failure else changed

def makeEntry (key value : Json) : Outcome :=
  match key with
  | .string name => .one (.object [(name, value)])
  | _ => .failure

mutual

def Filter.run : Filter → Bindings → Json → Outcome
  | .identity, _, input => .one input
  | .empty, _, _ => .none
  | .fail, _, _ => .failure
  | .literal value, _, _ => .one value
  | .variable name, bindings, _ => .ofOption (Record.get? bindings name)
  | .index base key, bindings, input =>
    (base.run bindings input).bind fun json =>
      (key.run bindings input).bind fun key => .ofOption (json.index? key)
  | .sliceFrom base start, bindings, input =>
    (base.run bindings input).bind fun json =>
      (start.run bindings input).bind fun start => .ofOption (json.slice? (some start) none)
  | .sliceTo base stop, bindings, input =>
    (base.run bindings input).bind fun json =>
      (stop.run bindings input).bind fun stop => .ofOption (json.slice? none (some stop))
  | .sliceBetween base start stop, bindings, input =>
    (base.run bindings input).bind fun json =>
      (start.run bindings input).bind fun start =>
        (stop.run bindings input).bind fun stop =>
          .ofOption (json.slice? (some start) (some stop))
  | .iterate base, bindings, input =>
    (base.run bindings input).bind fun json =>
      match json.elements? with
      | some items => ⟨items, false⟩
      | none => .failure
  | .collect items, bindings, input =>
    let outcome := items.run bindings input
    if outcome.failed then .failure else .one (.array outcome.values)
  | .entry key value, bindings, input =>
    (key.run bindings input).bind fun key =>
      (value.run bindings input).bind fun value => makeEntry key value
  | .unary op, _, input => .ofOption (op.result? input)
  | .binary op left right, bindings, input =>
    (left.run bindings input).bind fun a =>
      (right.run bindings input).bind fun b => .ofOption (op.result? a b)
  | .pipe left right, bindings, input =>
    (left.run bindings input).bind (right.run bindings)
  | .comma left right, bindings, input =>
    (left.run bindings input).andThen (right.run bindings input)
  | .alternative left right, bindings, input =>
    let outcome := left.run bindings input
    let values := outcome.values.filter isTrue
    if values.isEmpty && !outcome.failed then right.run bindings input
    else ⟨values, outcome.failed⟩
  | .condition test yes no, bindings, input =>
    (test.run bindings input).bind fun json =>
      if isTrue json then yes.run bindings input else no.run bindings input
  | .bind source name body, bindings, input =>
    (source.run bindings input).bind fun value => body.run ((name, value) :: bindings) input
  | .assign path value, bindings, input =>
    (value.run bindings input).bind fun value =>
      path.change bindings (fun _ => .one value) input
  | .update path change, bindings, input =>
    path.change bindings (change.run bindings) input
termination_by structural filter => filter

def Filter.change : Filter → Bindings → (Json → Outcome) → Json → Outcome
  | .identity, _, change, input => change input
  | .empty, _, _, input => .one input
  | .index base key, bindings, change, input =>
    changeInTurn (key.run bindings input) input fun key =>
      base.change bindings fun json => .ofOption (changeIndex key json change)
  | .sliceFrom base start, bindings, change, input =>
    changeInTurn (start.run bindings input) input fun start =>
      base.change bindings fun json => .ofOption (changeSlice (some start) none json change)
  | .sliceTo base stop, bindings, change, input =>
    changeInTurn (stop.run bindings input) input fun stop =>
      base.change bindings fun json => .ofOption (changeSlice none (some stop) json change)
  | .sliceBetween base start stop, bindings, change, input =>
    changeInTurn (start.run bindings input) input fun start input' =>
      changeInTurn (stop.run bindings input) input' fun stop =>
        base.change bindings fun json =>
          .ofOption (changeSlice (some start) (some stop) json change)
  | .iterate base, bindings, change, input =>
    base.change bindings (fun json => .ofOption (changeElements json change)) input
  | .pipe left right, bindings, change, input =>
    left.change bindings (right.change bindings change) input
  | .comma left right, bindings, change, input =>
    (left.change bindings change input).bind (right.change bindings change)
  | .alternative left right, bindings, change, input =>
    let outcome := left.run bindings input
    if outcome.values.any isTrue || outcome.failed then left.change bindings change input
    else right.change bindings change input
  | .condition test yes no, bindings, change, input =>
    changeInTurn (test.run bindings input) input fun json =>
      if isTrue json then yes.change bindings change else no.change bindings change
  | .bind source name body, bindings, change, input =>
    changeInTurn (source.run bindings input) input fun value =>
      body.change ((name, value) :: bindings) change
  | _, _, _, _ => .failure
termination_by structural filter => filter

end

end WireSchema.Query
