import WireSchema.Convert.Access
import WireSchema.Proofs.Convert.Members

/-! Conversions that use their path only to say where something is wrong. Such a conversion has an
outcome of its own, in which the steps to an error stand for its path; a path in front turns them
into text. Then it makes no difference whether an outer path is handed down or put before the
errors that come up. -/

namespace WireSchema

open Outcome

/-! ## Steps -/

inductive PathStep where
  | field (name : String) (valid : isIdentifier name = true)
  | index (position : Nat)

namespace PathStep

def extend (path : String) : PathStep → String
  | field name _ => Convert.atField path name
  | index position => Convert.atIndex path position

def pathTo (path : String) (steps : List PathStep) : String :=
  steps.foldl extend path

def text : PathStep → String
  | field name _ => "." ++ name
  | index position => "[" ++ (toString position ++ "]")

def textOf : List PathStep → String
  | [] => ""
  | step :: rest => step.text ++ textOf rest

theorem ne_empty_of_isIdentifier {name : String} (valid : isIdentifier name = true) :
    name ≠ "" := by
  rintro rfl
  cases valid

theorem extend_eq_append {path : String} (placed : path ≠ "") (step : PathStep) :
    step.extend path = path ++ step.text := by
  cases step with
  | field name valid => rw [extend, Convert.atField, if_neg placed, text, String.append_assoc]
  | index position => rw [extend, Convert.atIndex, text, String.append_assoc, String.append_assoc]

theorem extend_ne_empty (path : String) (step : PathStep) : step.extend path ≠ "" := by
  cases step with
  | field name valid =>
    by_cases placed : path = ""
    · rw [extend, Convert.atField, if_pos placed]
      exact ne_empty_of_isIdentifier valid
    · rw [extend, Convert.atField, if_neg placed]
      simp
  | index position => simp [extend, Convert.atIndex]

/-- After a path, the steps to an error are written one after another. -/
theorem pathTo_eq_append {path : String} (placed : path ≠ "") (steps : List PathStep) :
    pathTo path steps = path ++ textOf steps := by
  induction steps generalizing path with
  | nil => exact String.append_empty.symm
  | cons step rest ih =>
    calc
      pathTo path (step :: rest)
        = step.extend path ++ textOf rest := ih (extend_ne_empty path step)
      _ = path ++ textOf (step :: rest) := by
        rw [extend_eq_append placed, textOf, String.append_assoc]

theorem joinPath_of_isIdentifier {name : String} (valid : isIdentifier name = true)
    (segment rest : String) :
    ConvertError.joinPath segment (name ++ rest) = segment ++ ("." ++ (name ++ rest)) := by
  unfold isIdentifier at valid
  unfold ConvertError.joinPath
  rw [String.toList_append]
  cases chars : name.toList with
  | nil =>
    rw [chars] at valid
    cases valid
  | cons c others =>
    rw [chars, Bool.and_eq_true] at valid
    rw [List.cons_append]
    split
    next nothing => cases nothing
    next bracket =>
      cases bracket
      exact absurd valid.1 (by decide)
    next => exact String.append_assoc

theorem joinPath_of_bracket (segment rest : String) :
    ConvertError.joinPath segment ("[" ++ rest) = segment ++ ("[" ++ rest) := by
  unfold ConvertError.joinPath
  rw [String.toList_append]
  rfl

/-- A path goes before the path of an error as it goes before its steps. -/
theorem joinPath_pathTo (path : String) (steps : List PathStep) :
    ConvertError.joinPath path (pathTo "" steps) = path ++ textOf steps := by
  cases steps with
  | nil => exact String.append_empty.symm
  | cons step rest =>
    have inner : pathTo "" (step :: rest) = step.extend "" ++ textOf rest :=
      pathTo_eq_append (extend_ne_empty "" step) rest
    rw [inner, textOf]
    cases step with
    | field name valid =>
      rw [extend, Convert.atField, if_pos rfl, joinPath_of_isIdentifier valid, text,
        String.append_assoc]
    | index position =>
      simp only [extend, Convert.atIndex, text, String.empty_append, String.append_assoc,
        joinPath_of_bracket]

end PathStep

/-! ## Outcomes -/

/-- An error with the steps to it in the place of a path. -/
inductive RelativeError where
  | mismatch (steps : List PathStep) (expected found : String)
  | invalidEnum (enumName reason : String)
  | unrecognizedKind (enumName kind : String)

namespace RelativeError

def seenFrom (path : String) : RelativeError → ConvertError
  | mismatch steps expected found => .shapeMismatch (PathStep.pathTo path steps) expected found
  | invalidEnum enumName reason => .invalidEnum enumName reason
  | unrecognizedKind enumName kind => .unrecognizedKind enumName kind

def below (step : PathStep) : RelativeError → RelativeError
  | mismatch steps expected found => mismatch (step :: steps) expected found
  | error => error

theorem seenFrom_below (step : PathStep) (error : RelativeError) (path : String) :
    (error.below step).seenFrom path = error.seenFrom (step.extend path) := by
  cases error with
  | mismatch steps expected found => rfl
  | invalidEnum enumName reason => rfl
  | unrecognizedKind enumName kind => rfl

theorem seenFrom_eq_within {path : String} (placed : path ≠ "") (error : RelativeError) :
    error.seenFrom path = (error.seenFrom "").within path := by
  cases error with
  | mismatch steps expected found =>
    rw [seenFrom, seenFrom, ConvertError.within, PathStep.joinPath_pathTo,
      PathStep.pathTo_eq_append placed]
  | invalidEnum enumName reason => rfl
  | unrecognizedKind enumName kind => rfl

end RelativeError

def resultAt (outcome : Except RelativeError α) (path : String) : Convert α :=
  outcome.mapError (·.seenFrom path)

def IsRelative (convert : String → Convert α) : Prop :=
  ∃ outcome, convert = resultAt outcome

/-- Nothing depends on the path but the place of a mismatch, and there the path stands before the
steps that lead to the mismatch when the conversion is made alone. -/
structure IsPositional (convert : String → Convert α) : Prop where
  pulled : ∀ path, path ≠ "" → convert path = Convert.within path (convert "")
  succeeds : ∀ path value, convert path = .ok value ↔ convert "" = .ok value
  located : ∀ place expected found, convert "" = .error (.shapeMismatch place expected found) →
    ∃ steps, place = PathStep.pathTo "" steps ∧ ∀ path, path ≠ "" →
      convert path = .error (.shapeMismatch (path ++ PathStep.textOf steps) expected found)

theorem IsRelative.isPositional {convert : String → Convert α} (relative : IsRelative convert) :
    IsPositional convert := by
  obtain ⟨outcome, rfl⟩ := relative
  refine ⟨fun path placed => ?pulled, fun path value => ?succeeds,
    fun place expected found failed => ?located⟩
  case pulled =>
    cases outcome with
    | ok value => rfl
    | error error => exact congrArg Except.error (error.seenFrom_eq_within placed)
  case succeeds => rw [resultAt, resultAt, mapError_eq_ok, mapError_eq_ok]
  case located =>
    cases outcome with
    | ok value => cases failed
    | error error =>
      cases error with
      | mismatch steps expected' found' =>
        cases failed
        refine ⟨steps, rfl, fun path placed => ?_⟩
        rw [← PathStep.pathTo_eq_append placed]
        rfl
      | invalidEnum enumName reason => cases failed
      | unrecognizedKind enumName kind => cases failed

namespace IsRelative

variable {convert : String → Convert α}

theorem ok (value : α) : IsRelative fun _ => .ok value :=
  ⟨.ok value, rfl⟩

theorem mismatch (expected found : String) :
    IsRelative fun path => (Convert.mismatch path expected found : Convert α) :=
  ⟨.error (.mismatch [] expected found), rfl⟩

theorem invalidEnum (enumName reason : String) :
    IsRelative fun _ => (.error (.invalidEnum enumName reason) : Convert α) :=
  ⟨.error (.invalidEnum enumName reason), rfl⟩

theorem unrecognizedKind (enumName kind : String) :
    IsRelative fun _ => (.error (.unrecognizedKind enumName kind) : Convert α) :=
  ⟨.error (.unrecognizedKind enumName kind), rfl⟩

theorem bind {next : α → String → Convert β} (first : IsRelative convert)
    (rest : ∀ value, (∀ path, convert path = .ok value) → IsRelative (next value)) :
    IsRelative fun path => convert path >>= fun value => next value path := by
  obtain ⟨outcome, rfl⟩ := first
  cases outcome with
  | error error => exact ⟨.error error, rfl⟩
  | ok value => exact rest value fun _ => rfl

theorem map (f : α → β) (relative : IsRelative convert) :
    IsRelative fun path => (convert path).map f := by
  obtain ⟨outcome, rfl⟩ := relative
  cases outcome with
  | error error => exact ⟨.error error, rfl⟩
  | ok value => exact ok (f value)

theorem ite {other : String → Convert α} {condition : Prop} [Decidable condition]
    (first : IsRelative convert) (second : IsRelative other) :
    IsRelative fun path => if condition then convert path else other path := by
  by_cases holds : condition
  · simpa only [if_pos holds] using first
  · simpa only [if_neg holds] using second

theorem below (step : PathStep) (relative : IsRelative convert) :
    IsRelative fun path => convert (step.extend path) := by
  obtain ⟨outcome, rfl⟩ := relative
  cases outcome with
  | ok value => exact ok value
  | error error =>
    refine ⟨.error (error.below step), funext fun path => ?_⟩
    exact congrArg Except.error (error.seenFrom_below step path).symm

theorem atField {name : String} (valid : isIdentifier name = true)
    (relative : IsRelative convert) : IsRelative fun path => convert (Convert.atField path name) :=
  relative.below (.field name valid)

theorem atIndex (position : Nat) (relative : IsRelative convert) :
    IsRelative fun path => convert (Convert.atIndex path position) :=
  relative.below (.index position)

/-- Items one after another, each with one outcome for all paths. -/
theorem item {others : String → Convert (List α)} (position : Nat) (first : IsRelative convert)
    (rest : IsRelative others) :
    IsRelative fun path => do
      let value ← convert (Convert.atIndex path position)
      return value :: (← others path) :=
  bind (first.atIndex position) fun _ _ => rest.bind fun _ _ => ok _

theorem entry {convert' : String → Convert β} {others : String → Convert (List γ)} (position : Nat)
    (key : IsRelative convert) (value : IsRelative convert') (rest : IsRelative others)
    (write : α → β → γ) :
    IsRelative fun path => do
      let first ← convert (Convert.atIndex path position)
      let second ← convert' (Convert.atIndex path position)
      return write first second :: (← others path) :=
  bind (key.atIndex position) fun _ _ => (value.atIndex position).bind fun _ _ =>
    rest.bind fun _ _ => ok _

end IsRelative

/-! ## Results without a path -/

def IsBare (result : Convert α) : Prop :=
  ∀ place expected found, result = .error (.shapeMismatch place expected found) → place = ""

theorem IsRelative.within {result : Convert α} (bare : IsBare result) :
    IsRelative fun path => Convert.within path result := by
  cases result with
  | ok value => exact ok value
  | error error =>
    cases error with
    | shapeMismatch place expected found =>
      obtain rfl := bare place expected found rfl
      exact mismatch expected found
    | invalidEnum enumName reason => exact invalidEnum enumName reason
    | unrecognizedKind enumName kind => exact unrecognizedKind enumName kind

namespace IsBare

theorem ok (value : α) : IsBare (.ok value) := by
  intro place expected found failed
  cases failed

theorem mismatch (expected found : String) :
    IsBare (Convert.mismatch "" expected found : Convert α) := by
  intro place expected' found' failed
  cases failed
  rfl

theorem map (f : α → β) {result : Convert α} (bare : IsBare result) : IsBare (result.map f) := by
  intro place expected found failed
  cases result with
  | ok value => cases failed
  | error error =>
    cases failed
    exact bare place expected found rfl

theorem toBool (tree : Tree) : IsBare tree.toBool := by
  cases tree with
  | bool b => exact ok b
  | _ => exact mismatch _ _

theorem toUnsigned (w : Width) (tree : Tree) : IsBare (tree.toUnsigned w) := by
  cases tree with
  | unsigned n =>
    simp only [Tree.toUnsigned]
    split
    next => exact ok n
    next => exact mismatch _ _
  | _ => exact mismatch _ _

theorem toSigned (w : Width) (tree : Tree) : IsBare (tree.toSigned w) := by
  cases tree with
  | signed i =>
    simp only [Tree.toSigned]
    split
    next => exact ok i
    next => exact mismatch _ _
  | _ => exact mismatch _ _

theorem toDouble (tree : Tree) : IsBare tree.toDouble := by
  cases tree with
  | float x => exact ok x
  | _ => exact mismatch _ _

theorem toText (tree : Tree) : IsBare tree.toText := by
  cases tree with
  | string s => exact ok s
  | _ => exact mismatch _ _

theorem toBytes (tree : Tree) : IsBare tree.toBytes := by
  cases tree with
  | bytes b => exact ok b
  | _ => exact mismatch _ _

theorem toPublicKey (tree : Tree) : IsBare tree.toPublicKey := by
  cases tree with
  | bytes b =>
    simp only [Tree.toPublicKey]
    split
    next key _ => exact ok key
    next => exact mismatch _ _
  | _ => exact mismatch _ _

theorem valueOfTree (p : Primitive) (tree : Tree) : IsBare (p.valueOfTree tree) := by
  cases p with
  | bool => exact (toBool tree).map _
  | unsigned w => exact (toUnsigned w tree).map _
  | signed w => exact (toSigned w tree).map _
  | single => exact ((toDouble tree).map _).map _
  | double => exact (toDouble tree).map _
  | string => exact (toText tree).map _
  | bytes => exact (toBytes tree).map _
  | publicKey => exact (toPublicKey tree).map _

theorem readNumeral (scan : String → Option α) (fits : α → Bool) (text : String) :
    IsBare (Convert.readNumeral scan fits text) := by
  unfold Convert.readNumeral
  split
  next n _ =>
    split
    next => exact ok n
    next => exact mismatch _ _
  next => exact mismatch _ _

theorem readPublicKey (text : String) : IsBare (Convert.readPublicKey text) := by
  unfold Convert.readPublicKey
  split
  next key _ => exact ok key
  next => exact mismatch _ _

end IsBare

/-! ## Members -/

namespace IsRelative

variable {converters : Record (Converter β)} {declared : List Field}

theorem definition (table : Table) (name : String) :
    IsRelative (Convert.definition table name) := by
  unfold Convert.definition
  cases table.find? name with
  | some type => exact ok type.body
  | none => exact mismatch _ _

theorem findVariant (enumName : String) (variants : List Variant) (kind : String) :
    IsRelative fun _ => Convert.findVariant enumName variants kind := by
  unfold Convert.findVariant
  split
  next => exact ok _
  next => exact unrecognizedKind _ _

theorem checkArity (types : List FieldType) (length : Nat) :
    IsRelative (Convert.checkArity types length) :=
  ite (ok ()) (mismatch _ _)

theorem checkDeclared {keys : List String} (valid : ∀ key ∈ keys, isIdentifier key = true) :
    IsRelative (Convert.checkDeclared declared keys) := by
  unfold Convert.checkDeclared
  split
  next key found => exact atField (valid key (List.mem_of_find?_eq_some found)) (mismatch _ _)
  next => exact ok ()

def AreRelative (converters : Record (Converter β)) : Prop :=
  ∀ key convert, Record.get? converters key = some convert → ∀ type, IsRelative (convert type)

theorem members (each : AreRelative converters)
    (valid : ∀ field ∈ declared, isIdentifier field.name = true) :
    IsRelative fun path => Convert.members converters path declared := by
  induction declared with
  | nil => exact ok []
  | cons field rest ih =>
    obtain ⟨here, below⟩ := List.forall_mem_cons.1 valid
    unfold Convert.members
    cases found : Record.get? converters field.name with
    | none => exact atField here (mismatch _ _)
    | some convert =>
      exact bind (atField here (each _ _ found field.type)) fun value _ =>
        bind (ih below) fun others _ => ok _

theorem membersOr (absent : β) (each : AreRelative converters)
    (valid : ∀ field ∈ declared, isIdentifier field.name = true) :
    IsRelative fun path => Convert.membersOr absent converters path declared := by
  induction declared with
  | nil => exact ok []
  | cons field rest ih =>
    obtain ⟨here, below⟩ := List.forall_mem_cons.1 valid
    unfold Convert.membersOr
    cases found : Record.get? converters field.name with
    | some convert =>
      exact bind (atField here (each _ _ found field.type)) fun value _ =>
        bind (ih below) fun others _ => ok _
    | none =>
      cases field.type with
      | option item => exact bind (ih below) fun others _ => ok _
      | _ => exact atField here (mismatch _ _)

theorem elements {types : List FieldType} {converters : List (Converter β)}
    (each : ∀ convert ∈ converters, ∀ type, IsRelative (convert type)) (position : Nat) :
    IsRelative fun path => Convert.elements path position types converters := by
  induction types generalizing converters position with
  | nil => exact ok []
  | cons type types ih =>
    cases converters with
    | nil => exact ok []
    | cons convert converters =>
      obtain ⟨here, below⟩ := List.forall_mem_cons.1 each
      exact bind (atField (isIdentifier_tupleKey position) (here type)) fun value _ =>
        bind (ih below (position + 1)) fun others _ => ok _

end IsRelative

end WireSchema
