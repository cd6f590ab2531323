import WireSchema.Layout.Basic

/-! The encoded size of a layout when it does not depend on the value. The search follows
names, so that it may not end; a budget of names tells that case apart. -/

namespace WireSchema

def Primitive.size? : Primitive → Option Nat
  | bool => some 1
  | unsigned w | signed w => some w.bytes
  | single => some 4
  | double => some 8
  | publicKey => some 32
  | string | bytes => none

namespace Layout

/-- A search that may be cut short, for a size that may not be fixed. -/
abbrev Search := Option (Option Nat)

mutual

def sizeWith (named : String → Search) : Layout → Search
  | primitive p => some p.size?
  | vec _ | option _ | hashMap _ _ => some none
  | array item length => (sizeWith named item).map fun size => size.map (· * length)
  | struct fields => sumWith named fields
  | enum variants => choiceWith named variants
  | defined name => named name
termination_by structural layout => layout

def sumWith (named : String → Search) : List (String × Layout) → Search
  | [] => some (some 0)
  | (_, layout) :: rest =>
    match sizeWith named layout with
    | none => none
    | some none => some none
    | some (some size) => (sumWith named rest).map fun total => total.map (size + ·)
termination_by structural entries => entries

/-- The tag and the size that all payloads have, up to the first one that differs. -/
def choiceWith (named : String → Search) : List (String × Layout) → Search
  | [] => some none
  | (_, layout) :: rest =>
    match sizeWith named layout with
    | none => none
    | some none => some none
    | some (some size) => uniformWith named size rest
termination_by structural entries => entries

def uniformWith (named : String → Search) (size : Nat) : List (String × Layout) → Search
  | [] => some (some (1 + size))
  | (_, layout) :: rest =>
    match sizeWith named layout with
    | none => none
    | some other => if other = some size then uniformWith named size rest else some none
termination_by structural entries => entries

end

def sizeWithin (registry : Registry) : Nat → Layout → Search
  | 0 => sizeWith fun _ => none
  | budget + 1 => sizeWith fun name =>
    match Record.get? registry name with
    | some layout => sizeWithin registry budget layout
    | none => some none

/-- Along a search without repetition there are at most as many names as the registry has. -/
def fixedSize (registry : Registry) (layout : Layout) : Option Nat :=
  (sizeWithin registry (registry.length + 1) layout).join

end Layout

end WireSchema
