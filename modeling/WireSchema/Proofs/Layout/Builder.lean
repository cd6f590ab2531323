import WireSchema.Layout.Text
import WireSchema.Proofs.Codec.WellFormed
import WireSchema.Proofs.Record
import WireSchema.Proofs.Text.Quoted

/-! Builder expressions of layouts, read with the meaning of the functions they call. The
expression of a layout is read as that layout, whatever its names hold. -/

namespace WireSchema

inductive Built where
  | layout (layout : Layout)
  | text (value : String)
  | number (value : Nat)
  | tuple (parts : List Built)
  | array (items : List Built)

namespace Built

/-! ## Meaning -/

def entry? : Built → Option (String × Layout)
  | tuple [text key, layout part] => some (key, part)
  | _ => none

def constant? (path : String) : Option Layout :=
  (Primitive.all.find? fun p => "Layout::" ++ Layout.builderName p = path).map .primitive

/-- What a builder function returns. Entries are collected in order, the last one of a key in the
place of the first. -/
def call? : (path : String) → List Built → Option Layout
  | "Layout::vec", [layout item] => some (.vec item)
  | "Layout::array", [layout item, number length] => some (.array item length)
  | "Layout::option", [layout item] => some (.option item)
  | "Layout::hash_map", [layout key, layout value] => some (.hashMap key value)
  | "Layout::unit", [] => some .unit
  | "Layout::structure", [array entries] =>
    (entries.mapM entry?).map fun fields => .struct (Record.ofList fields)
  | "Layout::enumeration", [array entries] =>
    (entries.mapM entry?).map fun variants => .enum (Record.ofList variants)
  | "Layout::defined", [text name] => some (.defined name)
  | _, _ => none

/-! ## Reading -/

def isPathChar (c : Char) : Bool :=
  c.isAlphanum || c == '_' || c == ':'

mutual

def read : (fuel : Nat) → List Char → Option (Built × List Char)
  | 0, _ => none
  | _ + 1, '"' :: chars =>
    (Quoted.scan none chars).map fun (value, rest) => (text (String.ofList value), rest)
  | fuel + 1, '(' :: chars =>
    (readParts fuel ')' chars).map fun (parts, rest) => (tuple parts, rest)
  | fuel + 1, '[' :: chars =>
    (readParts fuel ']' chars).map fun (items, rest) => (array items, rest)
  | fuel + 1, chars =>
    let word := chars.takeWhile isPathChar
    match Numeral.digits? word, chars.dropWhile isPathChar with
    | some n, rest => some (number n, rest)
    | none, '(' :: inner => do
      let (arguments, rest) ← readParts fuel ')' inner
      let returned ← call? (String.ofList word) arguments
      return (layout returned, rest)
    | none, rest => (constant? (String.ofList word)).map fun constant => (layout constant, rest)

def readParts : (fuel : Nat) → (closing : Char) → List Char → Option (List Built × List Char)
  | fuel + 1, closing, c :: chars =>
    if c = closing then some ([], chars)
    else do
      let (first, rest) ← read fuel (c :: chars)
      let (others, rest) ← readOthers fuel closing rest
      return (first :: others, rest)
  | _, _, _ => none

def readOthers : (fuel : Nat) → (closing : Char) → List Char → Option (List Built × List Char)
  | fuel + 1, closing, ',' :: ' ' :: chars => do
    let (first, rest) ← read fuel chars
    let (others, rest) ← readOthers fuel closing rest
    return (first :: others, rest)
  | _ + 1, closing, c :: rest => if c = closing then some ([], rest) else none
  | _, _, _ => none

end

/-! ## Steps of a reading -/

variable {path : String} {chars rest after : List Char} {first second : Built}
  {parts : List Built} {returned : Layout} {fuel : Nat} {closing : Char}

def Ends (rest : List Char) : Prop :=
  ∀ c ∈ rest.head?, isPathChar c = false ∧ c ≠ '('

theorem ends_cons {c : Char} (other : isPathChar c = false) (bracket : c ≠ '(') :
    Ends (c :: rest) :=
  fun _ first => Option.some.inj first ▸ ⟨other, bracket⟩

theorem ends_comma : Ends (',' :: rest) := ends_cons rfl (by decide)

theorem ends_closing : Ends (')' :: rest) := ends_cons rfl (by decide)

theorem takeWhile_isPathChar {word : List Char} (inside : word.all isPathChar = true)
    (outside : ∀ c ∈ rest.head?, isPathChar c = false) :
    (word ++ rest).takeWhile isPathChar = word ∧ (word ++ rest).dropWhile isPathChar = rest := by
  rw [List.takeWhile_append_of_pos (List.all_eq_true.1 inside),
    List.dropWhile_append_of_pos (List.all_eq_true.1 inside)]
  cases rest with
  | nil => simp
  | cons c rest => simp [outside c rfl]

structure IsPath (path : String) : Prop where
  starts : ∃ others, path.toList = 'L' :: others
  word : path.toList.all isPathChar = true

theorem IsPath.digits? (named : IsPath path) : Numeral.digits? path.toList = none := by
  obtain ⟨others, spelled⟩ := named.starts
  rw [spelled]
  exact if_neg fun met => absurd met.2 Bool.false_ne_true

theorem read_call {opening : String} (named : IsPath path)
    (opens : opening.toList = path.toList ++ ['('])
    (arguments : readParts fuel ')' chars = some (parts, rest))
    (called : call? path parts = some returned) :
    read (fuel + 1) (opening.toList ++ chars) = some (layout returned, rest) := by
  obtain ⟨others, spelled⟩ := named.starts
  have letters := named.digits?
  obtain ⟨taken, left⟩ := @takeWhile_isPathChar ('(' :: chars) _ named.word
    fun c first => Option.some.inj first ▸ rfl
  rw [opens, List.append_assoc, List.singleton_append]
  rw [spelled, List.cons_append] at taken left ⊢
  rw [read]
  · rw [taken, left, ← spelled, letters, String.ofList_toList]
    simp only [arguments, called, Option.bind_eq_bind, Option.bind_some]
    rfl
  all_goals simp

theorem read_constant (named : IsPath path) (ends : Ends rest)
    (denoted : constant? path = some returned) :
    read (fuel + 1) (path.toList ++ rest) = some (layout returned, rest) := by
  obtain ⟨others, spelled⟩ := named.starts
  have letters := named.digits?
  obtain ⟨taken, left⟩ := takeWhile_isPathChar named.word fun c first => (ends c first).1
  rw [spelled, List.cons_append] at taken left ⊢
  rw [read]
  · rw [taken, left, ← spelled, letters, String.ofList_toList, denoted]
    split
    next same => cases same
    next => exact absurd rfl (ends '(' rfl).2
    next => rfl
  all_goals simp

theorem isPathChar_of_isDigit {c : Char} (digit : c.isDigit = true) : isPathChar c = true := by
  simp [isPathChar, Char.isAlphanum, digit]

theorem read_number (n : Nat) (ends : Ends rest) :
    read (fuel + 1) ((toString n).toList ++ rest) = some (number n, rest) := by
  have word : (Nat.toDigits 10 n).all isPathChar = true :=
    List.all_eq_true.2 fun c member => isPathChar_of_isDigit (Json.Scan.isDigit_of_mem c member)
  obtain ⟨taken, left⟩ := takeWhile_isPathChar word fun c first => (ends c first).1
  have digits := Numeral.digits?_toDigits n
  obtain ⟨c, others, spelled, digit⟩ := Json.Scan.exists_first_digit n
  rw [Nat.toString_eq_repr, Nat.toList_repr]
  rw [spelled, List.cons_append] at taken left ⊢
  rw [read]
  · rw [taken, left, ← spelled, digits]
  all_goals
    rintro chars same
    cases same
    cases digit

theorem read_text (value : String) :
    read (fuel + 1) ((Quoted.quote value).toList ++ rest) = some (text value, rest) := by
  rw [Quoted.quote, Quoted.quoteChars, String.toList_ofList, List.append_assoc, List.cons_append,
    read, List.singleton_append, Quoted.scan_flatMap_escapeChar]
  simp

/-- Whether a text does not start with the bracket that closes. -/
def Starts (closing : Char) (chars : List Char) : Prop :=
  ∃ c others, chars = c :: others ∧ c ≠ closing

theorem readParts_cons (start : Starts closing chars)
    (item : read fuel chars = some (first, rest))
    (others : readOthers fuel closing rest = some (parts, after)) :
    readParts (fuel + 1) closing chars = some (first :: parts, after) := by
  obtain ⟨c, chars, rfl, more⟩ := start
  rw [readParts, if_neg more, item]
  simp only [Option.bind_eq_bind, Option.bind_some, others]
  rfl

theorem readOthers_nil (bracket : closing ≠ ',') :
    readOthers (fuel + 1) closing (closing :: rest) = some ([], rest) := by
  rw [readOthers]
  · exact if_pos rfl
  · rintro chars rfl
    exact absurd rfl bracket

theorem readOthers_cons (item : read fuel chars = some (first, rest))
    (others : readOthers fuel closing rest = some (parts, after)) :
    readOthers (fuel + 1) closing (',' :: ' ' :: chars) = some (first :: parts, after) := by
  rw [readOthers, item]
  simp only [Option.bind_eq_bind, Option.bind_some, others]
  rfl

theorem readParts_nil : readParts (fuel + 1) closing (closing :: rest) = some ([], rest) := by
  rw [readParts, if_pos rfl]

theorem readParts_one (start : Starts ')' chars)
    (item : read (fuel + 1) chars = some (first, ')' :: rest)) :
    readParts (fuel + 2) ')' chars = some ([first], rest) :=
  readParts_cons start item (readOthers_nil (by decide))

theorem readParts_two (start : Starts ')' chars)
    (item : read (fuel + 2) chars = some (first, ',' :: ' ' :: rest))
    (next : read (fuel + 1) rest = some (second, ')' :: after)) :
    readParts (fuel + 3) ')' chars = some ([first, second], after) :=
  readParts_cons start item (readOthers_cons next (readOthers_nil (by decide)))

/-! ## Reading what was written -/

open Layout

theorem isPath_primitive (p : Primitive) : IsPath ("Layout::" ++ Layout.builderName p) := by
  have starts : ∃ others, ("Layout::" ++ Layout.builderName p).toList = 'L' :: others :=
    ⟨_, by rw [String.toList_append]; rfl⟩
  refine ⟨starts, ?_⟩
  rcases p with _ | w | w | _ | _ | _ | _ | _
  case unsigned => cases w <;> decide
  case signed => cases w <;> decide
  all_goals decide

theorem constant?_primitive (p : Primitive) :
    constant? ("Layout::" ++ Layout.builderName p) = some (.primitive p) := by
  have found : Primitive.all.find? (fun q => "Layout::" ++ Layout.builderName q =
      "Layout::" ++ Layout.builderName p) = some p := by
    rcases p with _ | w | w | _ | _ | _ | _ | _
    case unsigned => cases w <;> decide
    case signed => cases w <;> decide
    all_goals decide
  rw [constant?, found, Option.map_some]

theorem starts_append {opening : String} (starts : opening.toList.head? = some 'L')
    (rest : List Char) : Starts ')' (opening.toList ++ rest) := by
  obtain ⟨others, spelled⟩ := List.head?_eq_some_iff.1 starts
  exact ⟨'L', others ++ rest, by rw [spelled, List.cons_append], by decide⟩

theorem starts_builder (layout : Layout) (rest : List Char) :
    Starts ')' (layout.builder.toList ++ rest) := by
  rcases layout with _ | _ | _ | _ | _ | fields | _ | _
  case struct =>
    cases fields with
    | nil => exact starts_append (by decide) rest
    | cons field fields =>
      simp only [builder_struct_cons, String.toList_append, List.append_assoc]
      exact starts_append (by decide) _
  all_goals
    simp only [builder_primitive, builder_vec, builder_array, builder_option, builder_hashMap,
      builder_enum, builder_defined, String.toList_append, List.append_assoc]
    exact starts_append (by decide) _

theorem starts_builderEntry (entry : String × Layout) (rest : List Char) :
    Starts ']' ((builderEntry entry).toList ++ rest) := by
  obtain ⟨key, layout⟩ := entry
  simp only [builderEntry_mk, String.toList_append, List.append_assoc]
  exact ⟨'(', _, rfl, by decide⟩

theorem starts_quote (name : String) (rest : List Char) :
    Starts ')' ((Quoted.quote name).toList ++ rest) := by
  rw [Quoted.quote, String.toList_ofList]
  exact ⟨'"', _, rfl, by decide⟩

/-- A call takes a step for its name, one for its brackets and one for each argument. -/
theorem exists_fuel {opening : String} (opens : opening.toList = path.toList ++ ['('])
    (room : 2 * (opening.toList ++ chars).length < fuel) :
    ∃ left, fuel = left + 3 ∧ 2 * chars.length < left + 1 := by
  rw [opens] at room
  simp only [List.length_append, List.length_singleton] at room
  exact ⟨fuel - 3, by omega, by omega⟩

theorem exists_left {one two : List Char}
    (room : 2 * (one ++ ',' :: ' ' :: (two ++ ')' :: rest)).length < fuel + 1) :
    ∃ left, fuel = left + 1 ∧ 2 * (two ++ ')' :: rest).length < left + 1 := by
  simp only [List.length_append, List.length_cons] at room ⊢
  exact ⟨fuel - 1, by omega, by omega⟩

def ofEntry (entry : String × Layout) : Built :=
  tuple [text entry.1, layout entry.2]

theorem mapM_entry? (entries : List (String × Layout)) :
    (entries.map ofEntry).mapM entry? = some entries := by
  induction entries with
  | nil => rfl
  | cons entry rest ih =>
    rw [List.map_cons, List.mapM_cons, ih]
    rfl

theorem call?_structure (fields : List (String × Layout)) :
    call? "Layout::structure" [array (fields.map ofEntry)] =
      some (.struct (Record.ofList fields)) := by
  simp only [call?, mapM_entry?, Option.map_some]

theorem call?_enumeration (variants : List (String × Layout)) :
    call? "Layout::enumeration" [array (variants.map ofEntry)] =
      some (.enum (Record.ofList variants)) := by
  simp only [call?, mapM_entry?, Option.map_some]

/-! The text of a call, with what follows it. -/

theorem toList_called (opening argument : String) :
    (opening ++ argument ++ ")").toList ++ rest =
      opening.toList ++ (argument.toList ++ ')' :: rest) := by
  rw [String.toList_append, String.toList_append, List.append_assoc, List.append_assoc]
  rfl

theorem toList_called_two (opening one two : String) :
    (opening ++ one ++ ", " ++ two ++ ")").toList ++ rest =
      opening.toList ++ (one.toList ++ ',' :: ' ' :: (two.toList ++ ')' :: rest)) := by
  simp only [String.toList_append, List.append_assoc]
  rfl

theorem toList_called_list {opening bracket : String}
    (opens : opening.toList = bracket.toList ++ ['[']) (argument : String) :
    (opening ++ argument ++ "])").toList ++ rest =
      bracket.toList ++ ('[' :: (argument.toList ++ ']' :: ')' :: rest)) := by
  simp only [String.toList_append, List.append_assoc, opens]
  rfl

def following (parts : List String) : List Char :=
  parts.flatMap fun part => ',' :: ' ' :: part.toList

theorem following_cons (part : String) (parts : List String) (rest : List Char) :
    following (part :: parts) ++ rest = ',' :: ' ' :: (part.toList ++ (following parts ++ rest)) := by
  rw [following, List.flatMap_cons, List.append_assoc]
  rfl

theorem toList_intercalate (part : String) (parts : List String) :
    (", ".intercalate (part :: parts)).toList = part.toList ++ following parts := by
  induction parts generalizing part with
  | nil => rw [String.intercalate_singleton, following, List.flatMap_nil, List.append_nil]
  | cons next parts ih =>
    rw [String.intercalate_cons_cons, String.toList_append, String.toList_append, ih,
      List.append_assoc]
    rfl

/- Follows the recursion of the builder. Every expression is read with twice as much fuel as there
is text, since every step that takes fuel takes a character too, or is the next one to do so. -/
mutual

theorem read_builder : (constructed : Layout) → constructed.hasDistinctKeys = true →
    ∀ fuel rest, Ends rest → 2 * (constructed.builder.toList ++ rest).length < fuel →
      read fuel (constructed.builder.toList ++ rest) = some (layout constructed, rest)
  | .primitive p, _ => by
    intro fuel rest ends room
    obtain ⟨left, rfl⟩ : ∃ left, fuel = left + 1 := ⟨fuel - 1, by omega⟩
    exact read_constant (isPath_primitive p) ends (constant?_primitive p)
  | .vec item, distinct => by
    intro fuel rest _ room
    have opens : "Layout::vec(".toList = "Layout::vec".toList ++ ['('] := rfl
    rw [builder_vec, toList_called] at room ⊢
    obtain ⟨left, rfl, enough⟩ := exists_fuel opens room
    have one := read_builder item distinct (left + 1) _ ends_closing enough
    exact read_call ⟨⟨_, rfl⟩, by decide⟩ opens (readParts_one (starts_builder item _) one) rfl
  | .array item length, distinct => by
    intro fuel rest _ room
    have opens : "Layout::array(".toList = "Layout::array".toList ++ ['('] := rfl
    rw [builder_array, toList_called_two] at room ⊢
    obtain ⟨left, rfl, enough⟩ := exists_fuel opens room
    have one := read_builder item distinct (left + 1) _ ends_comma enough
    obtain ⟨left, rfl, -⟩ := exists_left enough
    have two := @read_number (')' :: rest) left length ends_closing
    exact read_call ⟨⟨_, rfl⟩, by decide⟩ opens (readParts_two (starts_builder item _) one two) rfl
  | .option item, distinct => by
    intro fuel rest _ room
    have opens : "Layout::option(".toList = "Layout::option".toList ++ ['('] := rfl
    rw [builder_option, toList_called] at room ⊢
    obtain ⟨left, rfl, enough⟩ := exists_fuel opens room
    have one := read_builder item distinct (left + 1) _ ends_closing enough
    exact read_call ⟨⟨_, rfl⟩, by decide⟩ opens (readParts_one (starts_builder item _) one) rfl
  | .hashMap key value, distinct => by
    intro fuel rest _ room
    obtain ⟨keys, values⟩ := Bool.and_eq_true_iff.1 distinct
    have opens : "Layout::hash_map(".toList = "Layout::hash_map".toList ++ ['('] := rfl
    rw [builder_hashMap, toList_called_two] at room ⊢
    obtain ⟨left, rfl, enough⟩ := exists_fuel opens room
    have one := read_builder key keys (left + 1) _ ends_comma enough
    obtain ⟨left, rfl, enough'⟩ := exists_left enough
    have two := read_builder value values (left + 1) _ ends_closing enough'
    exact read_call ⟨⟨_, rfl⟩, by decide⟩ opens (readParts_two (starts_builder key _) one two) rfl
  | .struct [], _ => by
    intro fuel rest _ room
    have opens : "Layout::unit(".toList = "Layout::unit".toList ++ ['('] := rfl
    have spelled : (builder (.struct [])).toList ++ rest = "Layout::unit(".toList ++ ')' :: rest :=
      rfl
    rw [spelled] at room ⊢
    obtain ⟨left, rfl, -⟩ := exists_fuel opens room
    exact read_call ⟨⟨_, rfl⟩, by decide⟩ opens readParts_nil rfl
  | .struct (field :: fields), distinct => by
    intro fuel rest _ room
    obtain ⟨unique, inside⟩ := Bool.and_eq_true_iff.1 distinct
    have opens : "Layout::structure(".toList = "Layout::structure".toList ++ ['('] := rfl
    have lists : "Layout::structure([".toList = "Layout::structure(".toList ++ ['['] := rfl
    rw [builder_struct_cons, toList_called_list lists] at room ⊢
    obtain ⟨left, rfl, enough⟩ := exists_fuel opens room
    have entries := read_entries (field :: fields) inside left (')' :: rest) enough
    refine read_call ⟨⟨_, rfl⟩, by decide⟩ opens
      (readParts_one ⟨'[', _, rfl, by decide⟩ entries) ?_
    rw [call?_structure, Record.ofList_eq_self (of_decide_eq_true unique)]
  | .enum variants, distinct => by
    intro fuel rest _ room
    obtain ⟨unique, inside⟩ := Bool.and_eq_true_iff.1 distinct
    have opens : "Layout::enumeration(".toList = "Layout::enumeration".toList ++ ['('] := rfl
    have lists : "Layout::enumeration([".toList = "Layout::enumeration(".toList ++ ['['] := rfl
    rw [builder_enum, toList_called_list lists] at room ⊢
    obtain ⟨left, rfl, enough⟩ := exists_fuel opens room
    have entries := read_entries variants inside left (')' :: rest) enough
    refine read_call ⟨⟨_, rfl⟩, by decide⟩ opens
      (readParts_one ⟨'[', _, rfl, by decide⟩ entries) ?_
    rw [call?_enumeration, Record.ofList_eq_self (of_decide_eq_true unique)]
  | .defined name, _ => by
    intro fuel rest _ room
    have opens : "Layout::defined(".toList = "Layout::defined".toList ++ ['('] := rfl
    rw [builder_defined, toList_called] at room ⊢
    obtain ⟨left, rfl, -⟩ := exists_fuel opens room
    exact read_call ⟨⟨_, rfl⟩, by decide⟩ opens
      (readParts_one (starts_quote name _) (read_text name)) rfl
termination_by structural constructed => constructed

/-- The entries of a record or an enum, in their brackets. -/
theorem read_entries : (entries : List (String × Layout)) → haveDistinctKeys entries = true →
    ∀ fuel rest,
      2 * ('[' :: ((", ".intercalate (builderEntries entries)).toList ++ ']' :: rest)).length <
        fuel + 1 →
      read (fuel + 1) ('[' :: ((", ".intercalate (builderEntries entries)).toList ++ ']' :: rest)) =
        some (array (entries.map ofEntry), rest)
  | [], _ => by
    intro fuel rest room
    obtain ⟨left, rfl⟩ : ∃ left, fuel = left + 1 := ⟨fuel - 1, by
      simp only [List.length_cons, List.length_append] at room
      omega⟩
    have nothing : (", ".intercalate (builderEntries [])).toList = [] := rfl
    rw [nothing, List.nil_append, read, readParts_nil]
    rfl
  | entry :: entries, distinct => by
    intro fuel rest room
    obtain ⟨here, below⟩ := Bool.and_eq_true_iff.1 distinct
    rw [builderEntries, toList_intercalate, List.append_assoc] at room ⊢
    simp only [List.length_cons, List.length_append] at room
    obtain ⟨left, rfl⟩ : ∃ left, fuel = left + 1 := ⟨fuel - 1, by omega⟩
    have item := read_entry entry here left
      (following (builderEntries entries) ++ ']' :: rest) (by
        simp only [List.length_cons, List.length_append]
        omega)
    have others := readOthers_following entries below left rest (by
      simp only [List.length_cons, List.length_append]
      omega)
    rw [read, readParts_cons (starts_builderEntry entry _) item others]
    rfl
termination_by structural entries => entries

theorem read_entry : (entry : String × Layout) → entry.2.hasDistinctKeys = true →
    ∀ fuel rest, 2 * ((builderEntry entry).toList ++ rest).length < fuel →
      read fuel ((builderEntry entry).toList ++ rest) = some (ofEntry entry, rest)
  | (key, part), distinct => by
    intro fuel rest room
    have opens : "(".toList = ['('] := rfl
    rw [builderEntry_mk, toList_called_two, opens, List.singleton_append] at room ⊢
    simp only [List.length_cons, List.length_append] at room
    obtain ⟨left, rfl⟩ : ∃ left, fuel = left + 4 := ⟨fuel - 4, by omega⟩
    have value := read_builder part distinct (left + 1) (')' :: rest) ends_closing (by
      simp only [List.length_cons, List.length_append]
      omega)
    rw [read, readParts_two (starts_quote key _) (read_text key) value]
    rfl
termination_by structural entry => entry

theorem readOthers_following : (entries : List (String × Layout)) →
    haveDistinctKeys entries = true → ∀ fuel rest,
      2 * (following (builderEntries entries) ++ ']' :: rest).length < fuel →
      readOthers fuel ']' (following (builderEntries entries) ++ ']' :: rest) =
        some (entries.map ofEntry, rest)
  | [], _ => by
    intro fuel rest room
    obtain ⟨left, rfl⟩ : ∃ left, fuel = left + 1 := ⟨fuel - 1, by omega⟩
    exact readOthers_nil (by decide)
  | entry :: entries, distinct => by
    intro fuel rest room
    obtain ⟨here, below⟩ := Bool.and_eq_true_iff.1 distinct
    rw [builderEntries, following_cons] at room ⊢
    simp only [List.length_cons, List.length_append] at room
    obtain ⟨left, rfl⟩ : ∃ left, fuel = left + 1 := ⟨fuel - 1, by omega⟩
    have item := read_entry entry here left
      (following (builderEntries entries) ++ ']' :: rest) (by
        simp only [List.length_cons, List.length_append]
        omega)
    have others := readOthers_following entries below left rest (by
      simp only [List.length_cons, List.length_append]
      omega)
    exact readOthers_cons item others
termination_by structural entries => entries

end

end Built

/-- The layout that a builder expression denotes. -/
def Layout.ofBuilder? (expression : String) : Option Layout :=
  match Built.read (2 * expression.toList.length + 1) expression.toList with
  | some (.layout layout, []) => some layout
  | _ => none

theorem Layout.ofBuilder?_builder {layout : Layout} (distinct : layout.hasDistinctKeys = true) :
    ofBuilder? layout.builder = some layout := by
  have read := Built.read_builder layout distinct (2 * layout.builder.toList.length + 1) []
    (fun _ first => nomatch first) (by rw [List.append_nil]; exact Nat.lt_succ_self _)
  rw [List.append_nil] at read
  rw [ofBuilder?, read]

end WireSchema
