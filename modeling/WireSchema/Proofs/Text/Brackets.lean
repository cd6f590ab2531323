import WireSchema.Proofs.Naming.Conversion
import WireSchema.Proofs.Text.Quoted

/-! Brackets in a text. Going through a text keeps the brackets that are still to close. A matched
text leaves them as they were, wherever it stands. -/

namespace WireSchema.Brackets

def closer? : Char → Option Char
  | '(' => some ')'
  | '[' => some ']'
  | '\x7b' => some '\x7d'
  | _ => none

def isBracket (c : Char) : Bool :=
  ['(', ')', '[', ']', '\x7b', '\x7d'].contains c

def turn (pending : List Char) (c : Char) : Option (List Char) :=
  match closer? c with
  | some closer => some (closer :: pending)
  | none =>
    if isBracket c then
      match pending with
      | innermost :: others => if innermost = c then some others else none
      | [] => none
    else some pending

def run (text : List Char) (pending : List Char) : Option (List Char) :=
  text.foldlM turn pending

def AreNested (text : String) : Prop :=
  run text.toList [] = some []

instance (text : String) : Decidable (AreNested text) :=
  inferInstanceAs (Decidable (run text.toList [] = some []))

example : AreNested "f([x], y)" ∧ ¬AreNested "f([x, y)]" := by decide

abbrev IsMatched (text : String) : Prop :=
  run text.toList = some

theorem IsMatched.areNested {text : String} (matched : IsMatched text) : AreNested text :=
  congrFun matched []

theorem run_append (first second : List Char) :
    run (first ++ second) = fun pending => (run first pending).bind (run second) :=
  funext fun _ => List.foldlM_append

theorem run_nil : run [] = some := rfl

theorem run_append_matched {first second : List Char} (matched : run first = some)
    (matched' : run second = some) : run (first ++ second) = some := by
  rw [run_append, matched, matched']
  rfl

theorem isMatched_append {first second : String} (matched : IsMatched first)
    (matched' : IsMatched second) : IsMatched (first ++ second) := by
  rw [IsMatched, String.toList_append]
  exact run_append_matched matched matched'

theorem isMatched_ite {condition : Prop} [Decidable condition] {first second : String}
    (matched : IsMatched first) (matched' : IsMatched second) :
    IsMatched (if condition then first else second) := by
  split
  · exact matched
  · exact matched'

theorem run_flatMap {α : Type} {parts : List α} {text : α → List Char}
    (matched : ∀ part ∈ parts, run (text part) = some) : run (parts.flatMap text) = some := by
  induction parts with
  | nil => rfl
  | cons part rest ih =>
    obtain ⟨here, below⟩ := List.forall_mem_cons.1 matched
    rw [List.flatMap_cons]
    exact run_append_matched here (ih below)

theorem isMatched_intercalate {mark : String} (apart : IsMatched mark) {parts : List String}
    (matched : ∀ part ∈ parts, IsMatched part) : IsMatched (mark.intercalate parts) := by
  induction parts with
  | nil => rfl
  | cons part rest ih =>
    obtain ⟨here, below⟩ := List.forall_mem_cons.1 matched
    cases rest with
    | nil =>
      rw [String.intercalate_singleton]
      exact here
    | cons next others =>
      rw [String.intercalate_cons_cons]
      exact isMatched_append (isMatched_append here apart) (ih below)

/-! ## Texts in pieces -/

theorem isMatched_ofList {chars : List Char} (matched : run chars = some) :
    IsMatched (String.ofList chars) := by
  rw [IsMatched, String.toList_ofList]
  exact matched

/-- A part of a text: one whose characters are known, one that is matched whatever it is, or one
that goes as other characters do. -/
inductive Piece where
  | fixed (chars : List Char)
  | filled {text : String} (matched : IsMatched text)
  | alike {text : String} {chars : List Char} (same : run text.toList = run chars)

namespace Piece

def text : Piece → String
  | fixed chars => String.ofList chars
  | @filled text _ => text
  | @alike text _ _ => text

def chars : Piece → List Char
  | fixed chars => chars
  | filled _ => []
  | @alike _ chars _ => chars

theorem run_text (piece : Piece) : run piece.text.toList = run piece.chars := by
  cases piece with
  | fixed chars => rw [text, String.toList_ofList, Piece.chars]
  | filled matched => exact matched
  | alike same => exact same

end Piece

def joined (first : Piece) (others : List Piece) : String :=
  others.foldl (fun text piece => text ++ piece.text) first.text

/-- Matched parts do not matter to what stands around them. -/
theorem run_joined (first : Piece) (others : List Piece) :
    run (joined first others).toList = run (first.chars ++ others.flatMap Piece.chars) := by
  -- The text in front grows piece by piece, and so is any that goes as some characters do.
  have left (text : String) (chars : List Char) (same : run text.toList = run chars) :
      run (others.foldl (fun text piece => text ++ piece.text) text).toList =
        run (chars ++ others.flatMap Piece.chars) := by
    induction others generalizing text chars with
    | nil => rw [List.foldl_nil, List.flatMap_nil, List.append_nil, same]
    | cons piece rest ih =>
      rw [List.foldl_cons, List.flatMap_cons, ← List.append_assoc]
      refine ih _ _ ?_
      rw [String.toList_append, run_append, run_append, same, piece.run_text]
  exact left _ _ first.run_text

theorem isMatched_joined (first : Piece) (others : List Piece)
    (matched : run (first.chars ++ others.flatMap Piece.chars) = some) :
    IsMatched (joined first others) := by
  rw [IsMatched, run_joined, matched]

/-! ## Texts without brackets -/

theorem turn_other {c : Char} (other : isBracket c = false) (pending : List Char) :
    turn pending c = some pending := by
  have opens : closer? c = none := by
    unfold closer?
    split
    case h_4 => rfl
    all_goals cases other
  rw [turn.eq_def, opens, other]
  rfl

theorem run_cons_other {c : Char} (other : isBracket c = false) (text : List Char) :
    run (c :: text) = run text := by
  funext pending
  rw [run, List.foldlM_cons, turn_other other]
  rfl

/-- Only the brackets of a text matter. -/
theorem run_filter (text : List Char) : run (text.filter isBracket) = run text := by
  induction text with
  | nil => rfl
  | cons c rest ih =>
    cases other : isBracket c with
    | false => rw [List.filter_cons_of_neg (by rw [other]; exact Bool.false_ne_true), ih,
        run_cons_other other]
    | true =>
      rw [List.filter_cons_of_pos other]
      funext pending
      rw [run, run, List.foldlM_cons, List.foldlM_cons]
      exact congrArg ((turn pending c).bind ·) ih

theorem run_eq_of_filter {text text' : List Char}
    (same : text.filter isBracket = text'.filter isBracket) : run text = run text' := by
  rw [← run_filter text, same, run_filter]

def IsPlain (text : String) : Prop :=
  ∀ c ∈ text.toList, isBracket c = false

theorem run_plain {text : List Char} (plain : ∀ c ∈ text, isBracket c = false) :
    run text = some := by
  rw [← run_filter, List.filter_eq_nil_iff.2 fun c member => by simp [plain c member], run_nil]

theorem IsPlain.isMatched {text : String} (plain : IsPlain text) : IsMatched text :=
  run_plain plain

/-- The brackets are few enough to be gone through. -/
theorem isBracket_of_clear {p : Char → Bool}
    (clear : ['(', ')', '[', ']', '\x7b', '\x7d'].all (fun bracket => !p bracket) = true) {c : Char}
    (met : p c = true) : isBracket c = false := by
  refine Bool.eq_false_iff.2 fun bracket => ?_
  have absent := List.all_eq_true.1 clear c (List.contains_iff_mem.1 bracket)
  rw [met] at absent
  cases absent

theorem isBracket_of_isWord {c : Char} (word : IsWord c) : isBracket c = false :=
  isBracket_of_clear (p := isIdentifierRest) (by decide) (isIdentifierRest_iff.2 word)

theorem isPlain_of_isIdentifier {name : String} (identifier : IsIdentifier name) : IsPlain name :=
  fun _ member => isBracket_of_isWord (identifier.isWord member)

theorem isPlain_of_all {text : String} (none : text.toList.all (fun c => !isBracket c) = true) :
    IsPlain text :=
  fun c member => by simpa using List.all_eq_true.1 none c member

theorem isPlain_append {first second : String} :
    IsPlain (first ++ second) ↔ IsPlain first ∧ IsPlain second := by
  simp only [IsPlain, String.toList_append, List.forall_mem_append]

/-! ## Quoted texts -/

theorem run_hexDigits (n : Nat) : run (Quoted.hexDigits n) = some := by
  have plain : ∀ digit < 16, isBracket (Nat.digitChar digit) = false := by decide
  refine run_plain fun c member => ?_
  obtain ⟨digit, small, rfl⟩ := Quoted.exists_digit_of_mem_hexDigits member
  exact plain digit small

/-- The braces of an escape by code point close each other. -/
theorem run_codePoint (c : Char) : run (Quoted.codePoint c) = some := by
  funext pending
  have opens : run ('\x7b' :: Quoted.hexDigits c.toNat) pending =
      run (Quoted.hexDigits c.toNat) ('\x7d' :: pending) := rfl
  rw [Quoted.codePoint, run_append, run_cons_other rfl, run_cons_other rfl]
  beta_reduce
  rw [opens, run_hexDigits]
  rfl

theorem run_escapeChar {mark c : Char} (other : isBracket c = false) :
    run (Quoted.escapeChar mark c) = some := by
  unfold Quoted.escapeChar
  split_ifs
  · rw [run_cons_other rfl, run_cons_other other, run_nil]
  · rfl
  · rfl
  · rfl
  · rfl
  · exact run_codePoint c
  · rw [run_cons_other other, run_nil]

theorem isMatched_quote {text : String} (plain : IsPlain text) : IsMatched (Quoted.quote text) := by
  rw [IsMatched, Quoted.quote, String.toList_ofList, Quoted.quoteChars, List.cons_append,
    run_cons_other rfl]
  exact run_append_matched (run_flatMap fun c member => run_escapeChar (plain c member)) rfl

end WireSchema.Brackets
