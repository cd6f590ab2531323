/-! Source text with indentation. A text is a list of steps, and rendering is the only place
where the depth of a line is known. -/

namespace WireSchema

namespace Source

inductive Step where
  | line (text : String)
  | blank
  | opening (header : String)
  | closing (suffix : String)
  | indent (header : String)
  | dedent (footer : String)
  deriving DecidableEq, Repr

def Step.depthAfter (depth : Nat) : Step → Nat
  | .line _ | .blank => depth
  | .opening _ | .indent _ => depth + 1
  | .closing _ | .dedent _ => depth - 1

def Step.depthOf (depth : Nat) : Step → Nat
  | .closing _ | .dedent _ => depth - 1
  | _ => depth

def Step.text : Step → String
  | .line text | .indent text | .dedent text => text
  | .blank => ""
  | .opening header => header ++ " \x7b"
  | .closing suffix => "\x7d" ++ suffix

def lines (text : String) : List String :=
  (text.toList.splitOn '\n').map String.ofList

def indentation : Nat → String
  | 0 => ""
  | depth + 1 => "    " ++ indentation depth

def indentLine (depth : Nat) (line : String) : String :=
  if line = "" then "\n" else indentation depth ++ line ++ "\n"

def renderAt : Nat → List Step → List String
  | _, [] => []
  | depth, step :: rest =>
    (lines step.text).map (indentLine (step.depthOf depth)) ++ renderAt (step.depthAfter depth) rest

def depthAfter (depth : Nat) (steps : List Step) : Nat :=
  steps.foldl Step.depthAfter depth

def enclosed (header suffix : String) (body : List Step) : List Step :=
  .opening header :: body ++ [.closing suffix]

def block (header : String) (body : List Step) : List Step :=
  enclosed header "" body

def continued (header footer : String) (body : List Step) : List Step :=
  .indent header :: body ++ [.dedent footer]

def spaced (parts : List (List Step)) : List Step :=
  [.blank].intercalate parts

theorem depthAfter_append (depth : Nat) (first second : List Step) :
    depthAfter depth (first ++ second) = depthAfter (depthAfter depth first) second :=
  List.foldl_append

theorem renderAt_append (depth : Nat) (first second : List Step) :
    renderAt depth (first ++ second) =
      renderAt depth first ++ renderAt (depthAfter depth first) second := by
  induction first generalizing depth with
  | nil => rfl
  | cons step rest ih =>
    simp only [List.cons_append, renderAt, ih, List.append_assoc]
    rfl

end Source

abbrev Source := List Source.Step

def Source.render (source : Source) : String :=
  String.join (Source.renderAt 0 source)

end WireSchema
