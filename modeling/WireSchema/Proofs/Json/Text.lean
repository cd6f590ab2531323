import WireSchema.Json.Parser
import WireSchema.Proofs.Json.Merge
import WireSchema.Proofs.Json.Tokens

/-! Text of JSON values. A value that is printed is parsed again, with whatever blanks around its
parts, if its numbers are integers, its keys are distinct and its brackets are few enough. -/

namespace WireSchema.Json

mutual

def IsWhole : Json → Prop
  | .number n => n.IsWhole
  | .array items => ItemsAreWhole items
  | .object members => MembersAreWhole members
  | _ => True
termination_by structural json => json

def ItemsAreWhole : List Json → Prop
  | [] => True
  | item :: rest => IsWhole item ∧ ItemsAreWhole rest
termination_by structural items => items

def MembersAreWhole : List (String × Json) → Prop
  | [] => True
  | (_, value) :: rest => IsWhole value ∧ MembersAreWhole rest
termination_by structural members => members

end

structure Spacing.IsBlank (spacing : Spacing) : Prop where
  newline : ∀ depth, ∀ c ∈ (spacing.newline depth).toList, Scan.isBlank c = true
  colon : ∃ gap, spacing.colon.toList = ':' :: gap ∧ ∀ c ∈ gap, Scan.isBlank c = true

theorem isBlank_pretty : prettySpacing.IsBlank where
  newline depth c member := by
    rw [prettySpacing, String.toList_append, List.mem_append, String.toList_join] at member
    obtain first | inside := member
    · rw [List.mem_singleton.1 first]
      rfl
    · obtain ⟨indent, repeated, space⟩ := List.mem_flatMap.1 inside
      rw [List.eq_of_mem_replicate repeated] at space
      have only : "  ".toList.all Scan.isBlank = true := by decide
      exact List.all_eq_true.1 only c space
  colon := ⟨[' '], rfl, List.forall_mem_singleton.2 rfl⟩

/-! ## Parts between brackets -/

def closing (spacing : Spacing) (depth : Nat) (right : Char) : List String → List Char
  | [] => (spacing.newline depth).toList ++ [right]
  | part :: rest =>
    ',' :: ((spacing.newline (depth + 1)).toList ++
      (part.toList ++ closing spacing depth right rest))

theorem toList_bracketed {spacing : Spacing} {depth : Nat} {left right part : String}
    {opened closed : Char} (opens : left.toList = [opened]) (closes : right.toList = [closed])
    (rest : List String) :
    (bracketed spacing depth left right (part :: rest)).toList =
      opened :: ((spacing.newline (depth + 1)).toList ++
        (part.toList ++ closing spacing depth closed rest)) := by
  have tail : (("," ++ spacing.newline (depth + 1)).intercalate (part :: rest)).toList ++
      ((spacing.newline depth).toList ++ [closed]) =
        part.toList ++ closing spacing depth closed rest := by
    induction rest generalizing part with
    | nil => rw [String.intercalate_singleton, closing]
    | cons next rest ih =>
      simp only [String.intercalate_cons_cons, String.toList_append, List.append_assoc] at ih ⊢
      rw [ih, closing]
      rfl
  simp only [bracketed, String.toList_append, ← tail, opens, closes, List.append_assoc]
  rfl

theorem Scan.endsNumber_of_isBlank {c : Char} (blank : isBlank c = true) :
    endsNumber c = true := by
  simp only [isBlank, Bool.or_eq_true, decide_eq_true_eq] at blank
  obtain ((rfl | rfl) | rfl) | rfl := blank <;> rfl

/-- A part ends where a blank, a comma or the closing bracket comes. -/
theorem endsNumber_closing {spacing : Spacing} (blank : spacing.IsBlank) (depth : Nat)
    (closed : Char) (bracket : Scan.endsNumber closed = true) (parts : List String)
    (rest : List Char) : Scan.EndsNumber (closing spacing depth closed parts ++ rest) := by
  intro c first
  cases parts with
  | nil =>
    have gap := blank.newline depth
    rw [closing] at first
    cases chars : (spacing.newline depth).toList with
    | nil =>
      rw [chars] at first
      cases first
      exact bracket
    | cons c' others =>
      rw [chars] at first gap
      cases first
      exact Scan.endsNumber_of_isBlank (gap c List.mem_cons_self)
  | cons part parts =>
    cases first
    rfl

/-! ## Scanning -/

namespace Scan

variable {gap text item rest after : List Char} {fuel : Nat} {draft : Draft} {drafts : List Draft}
  {members : List (Except SyntaxError String × Draft)}

theorem scanItems_end (blank : ∀ c ∈ gap, isBlank c = true) (first : Bool) :
    scanItems (fuel + 1) first (gap ++ ']' :: rest) = ([], none, some rest) := by
  rw [scanItems, skipBlank_append blank]
  rfl

theorem scanItems_cons {c : Char} (dark : isBlank c = false) (more : c ≠ ']') {first : Bool}
    (blank : ∀ c ∈ gap, isBlank c = true) (next : nextItem first (c :: text) = .ok item)
    (scanned : scanValue fuel item = (draft, some rest))
    (others : scanItems fuel false rest = (drafts, none, some after)) :
    scanItems (fuel + 1) first (gap ++ c :: text) = (draft :: drafts, none, some after) := by
  rw [scanItems, skipBlank_append blank, skipBlank_cons dark]
  split
  next same => cases same
  next same => exact absurd (List.cons.inj same).1 more
  next => simp only [next, scanned, others]

theorem scanItems_first {c : Char} (dark : isBlank c = false) (more : c ≠ ']')
    (blank : ∀ c ∈ gap, isBlank c = true)
    (scanned : scanValue fuel (c :: text) = (draft, some rest))
    (others : scanItems fuel false rest = (drafts, none, some after)) :
    scanItems (fuel + 1) true (gap ++ c :: text) = (draft :: drafts, none, some after) :=
  scanItems_cons dark more blank rfl scanned others

theorem scanItems_next {c : Char} (dark : isBlank c = false) (more : c ≠ ']')
    (blank : ∀ c ∈ gap, isBlank c = true)
    (scanned : scanValue fuel (c :: text) = (draft, some rest))
    (others : scanItems fuel false rest = (drafts, none, some after)) :
    scanItems (fuel + 1) false (',' :: (gap ++ c :: text)) =
      (draft :: drafts, none, some after) := by
  have next : nextItem false (',' :: (gap ++ c :: text)) = .ok (c :: text) := by
    simp only [nextItem, skipBlank_append blank, skipBlank_cons dark]
    split <;> simp_all
  exact @scanItems_cons [] _ _ _ _ _ _ _ _ rfl (by decide) false nofun next scanned others

theorem scanMembers_end (blank : ∀ c ∈ gap, isBlank c = true) (first : Bool) :
    scanMembers (fuel + 1) first (gap ++ '}' :: rest) = ([], none, some rest) := by
  rw [scanMembers, skipBlank_append blank]
  rfl

theorem scanMembers_cons {c : Char} (dark : isBlank c = false) (more : c ≠ '}') {first : Bool}
    {key : Except SyntaxError (List Char)} {value : List Char}
    (blank : ∀ c ∈ gap, isBlank c = true) (next : nextKey first (c :: text) = .ok item)
    (named : scanString item = .closed key (':' :: value))
    (scanned : scanValue fuel value = (draft, some rest))
    (others : scanMembers fuel false rest = (members, none, some after)) :
    scanMembers (fuel + 1) first (gap ++ c :: text) =
      ((key.map String.ofList, draft) :: members, none, some after) := by
  have colon : skipBlank (':' :: value) = ':' :: value := skipBlank_cons rfl value
  rw [scanMembers, skipBlank_append blank, skipBlank_cons dark]
  split
  next same => cases same
  next same => exact absurd (List.cons.inj same).1 more
  next => simp only [next, named, colon, scanned, others]

theorem scanMembers_first {key : Except SyntaxError (List Char)} {value : List Char}
    (blank : ∀ c ∈ gap, isBlank c = true) (named : scanString text = .closed key (':' :: value))
    (scanned : scanValue fuel value = (draft, some rest))
    (others : scanMembers fuel false rest = (members, none, some after)) :
    scanMembers (fuel + 1) true (gap ++ '"' :: text) =
      ((key.map String.ofList, draft) :: members, none, some after) :=
  scanMembers_cons rfl (by decide) blank rfl named scanned others

theorem scanMembers_next {key : Except SyntaxError (List Char)} {value : List Char}
    (blank : ∀ c ∈ gap, isBlank c = true) (named : scanString text = .closed key (':' :: value))
    (scanned : scanValue fuel value = (draft, some rest))
    (others : scanMembers fuel false rest = (members, none, some after)) :
    scanMembers (fuel + 1) false (',' :: (gap ++ '"' :: text)) =
      ((key.map String.ofList, draft) :: members, none, some after) := by
  have next : nextKey false (',' :: (gap ++ '"' :: text)) = .ok text := by
    simp only [nextKey, skipBlank_append blank]
    rfl
  exact @scanMembers_cons [] _ _ _ _ _ _ _ _ rfl (by decide) false _ _ nofun next named scanned
    others

end Scan

/-! ## Printed values -/

section

variable {spacing : Spacing}

theorem toList_quoteString (text : String) :
    (quoteString text).toList = '"' :: (text.toList.flatMap escapeChar ++ ['"']) := by
  rw [quoteString, String.toList_ofList]
  rfl

theorem toList_null (depth : Nat) :
    (render spacing .null depth).toList = ['n', 'u', 'l', 'l'] := by
  rw [render]
  rfl

theorem toList_bool (b : Bool) (depth : Nat) :
    (render spacing (.bool b) depth).toList =
      if b then ['t', 'r', 'u', 'e'] else ['f', 'a', 'l', 's', 'e'] := by
  rw [render]
  cases b <;> rfl

theorem toList_array_nil (depth : Nat) :
    (render spacing (.array []) depth).toList = ['[', ']'] := by
  rw [render, renderItems, bracketed]
  rfl

theorem toList_array_cons (item : Json) (items : List Json) (depth : Nat) :
    (render spacing (.array (item :: items)) depth).toList =
      '[' :: ((spacing.newline (depth + 1)).toList ++ ((render spacing item (depth + 1)).toList ++
        closing spacing depth ']' (renderItems spacing items (depth + 1)))) := by
  rw [render, renderItems]
  exact toList_bracketed rfl rfl _

theorem toList_object_nil (depth : Nat) :
    (render spacing (.object []) depth).toList = ['{', '}'] := by
  rw [render, renderMembers, bracketed]
  rfl

def memberText (spacing : Spacing) (key : String) (value : Json) (depth : Nat) : List Char :=
  key.toList.flatMap escapeChar ++
    '"' :: (spacing.colon.toList ++ (render spacing value depth).toList)

theorem toList_member (key : String) (value : Json) (depth : Nat) :
    (quoteString key ++ spacing.colon ++ render spacing value depth).toList =
      '"' :: memberText spacing key value depth := by
  rw [String.toList_append, String.toList_append, toList_quoteString, memberText,
    List.cons_append, List.cons_append, List.append_assoc, List.append_assoc,
    List.singleton_append]

theorem toList_object_cons (key : String) (value : Json) (members : List (String × Json))
    (depth : Nat) :
    (render spacing (.object ((key, value) :: members)) depth).toList =
      '{' :: ((spacing.newline (depth + 1)).toList ++
        ('"' :: memberText spacing key value (depth + 1) ++
          closing spacing depth '}' (renderMembers spacing members (depth + 1)))) := by
  rw [render, renderMembers, ← toList_member]
  exact toList_bracketed rfl rfl _

def kindOfStart (c : Char) : String :=
  if c = 'n' then "null"
  else if c = 't' ∨ c = 'f' then "bool"
  else if c = '"' then "string"
  else if c = '[' then "array"
  else if c = '{' then "object"
  else "number"

theorem kindOfStart_digit {c : Char} (digit : c.isDigit = true) : kindOfStart c = "number" := by
  have other {mark : Char} (outside : mark.isDigit = false) : c ≠ mark :=
    Scan.digit_ne digit outside
  simp [kindOfStart, other]

theorem exists_start_integer (i : Int) :
    ∃ c text, (toString i).toList = c :: text ∧ (c.isDigit = true ∨ c = '-') := by
  cases i with
  | ofNat n =>
    obtain ⟨c, digits, spelled, digit⟩ := Scan.exists_first_digit n
    exact ⟨c, digits, (Numeral.toList_ofNat n).trans spelled, .inl digit⟩
  | negSucc n => exact ⟨'-', _, Numeral.toList_negSucc n, .inr rfl⟩

/-- A value that is no fraction starts as its kind does, with neither a blank nor a bracket that
closes. -/
theorem exists_start : ∀ {json : Json}, (∀ n, json = .number n → n.IsInteger) → ∀ depth, ∃ c text,
    (render spacing json depth).toList = c :: text ∧ kindOfStart c = json.kindName ∧
      Scan.isBlank c = false ∧ c ≠ ']'
  | .null, _, depth => ⟨'n', _, toList_null depth, rfl, rfl, by decide⟩
  | .bool true, _, depth => ⟨'t', _, toList_bool true depth, rfl, rfl, by decide⟩
  | .bool false, _, depth => ⟨'f', _, toList_bool false depth, rfl, rfl, by decide⟩
  | .number (.int i), _, _ => by
    obtain ⟨c, text, spelled, start⟩ := exists_start_integer i
    refine ⟨c, text, by rw [render, numberText, spelled], ?_⟩
    obtain digit | rfl := start
    · exact ⟨kindOfStart_digit digit, Scan.isBlank_of_isDigit digit, Scan.digit_ne digit rfl⟩
    · exact ⟨rfl, rfl, by decide⟩
  | .number (.float x), integer, _ => (integer _ rfl).elim
  | .string s, _, _ => ⟨'"', _, by rw [render, toList_quoteString], rfl, rfl, by decide⟩
  | .array [], _, depth => ⟨'[', _, toList_array_nil depth, rfl, rfl, by decide⟩
  | .array (item :: rest), _, depth =>
    ⟨'[', _, toList_array_cons item rest depth, rfl, rfl, by decide⟩
  | .object [], _, depth => ⟨'{', _, toList_object_nil depth, rfl, rfl, by decide⟩
  | .object ((key, value) :: rest), _, depth =>
    ⟨'{', _, toList_object_cons key value rest depth, rfl, rfl, by decide⟩

theorem IsWhole.isInteger {json : Json} (whole : json.IsWhole) :
    ∀ n, json = .number n → n.IsInteger := by
  rintro n rfl
  exact Number.IsWhole.isInteger whole

open Scan

theorem scanValue_bool (b : Bool) (depth fuel : Nat) (rest : List Char) :
    scanValue (fuel + 1) ((render spacing (.bool b) depth).toList ++ rest) =
      (.bool b, some rest) := by
  rw [toList_bool]
  cases b <;> rfl

theorem scanValue_string (text : String) (fuel : Nat) (rest : List Char) :
    scanValue (fuel + 1) ((quoteString text).toList ++ rest) =
      (.string (.ok text), some rest) := by
  have scanned := scanString_stringChars text.toList rest
  rw [toList_quoteString, List.cons_append, List.append_assoc, List.singleton_append, scanValue,
    skipBlank_cons rfl]
  simp only [Scan.string, scanned, Except.map, String.ofList_toList]

/-- The key of a member is scanned up to its colon. -/
theorem exists_scanString_member (blank : spacing.IsBlank) (key : String) (value : Json)
    (depth : Nat) (rest : List Char) : ∃ gap, (∀ c ∈ gap, isBlank c = true) ∧
      (memberText spacing key value depth).length =
        (key.toList.flatMap escapeChar).length + gap.length +
          (render spacing value depth).toList.length + 2 ∧
      scanString (memberText spacing key value depth ++ rest) =
        .closed (.ok key.toList)
          (':' :: (gap ++ ((render spacing value depth).toList ++ rest))) := by
  obtain ⟨gap, colon, blanks⟩ := blank.colon
  refine ⟨gap, blanks, ?_, ?_⟩
  · simp only [memberText, colon, List.length_append, List.length_cons]
    omega
  · rw [memberText, colon, List.append_assoc, List.cons_append, scanString_stringChars,
      List.cons_append, List.cons_append, List.append_assoc]

/- Follows the recursion of the printer. There is fuel as long as there is twice as much of it as
text, and every step that takes one takes a character too, or is the next one to do so. -/
mutual

theorem scanValue_render (blank : spacing.IsBlank) : (json : Json) → json.IsWhole →
    ∀ depth fuel rest, EndsNumber rest →
      2 * ((render spacing json depth).toList ++ rest).length ≤ fuel →
      scanValue (fuel + 1) ((render spacing json depth).toList ++ rest) =
        (Draft.ofJson json, some rest)
  | .null, _ => by
    intro depth fuel rest _ _
    rw [toList_null]
    rfl
  | .bool b, _ => fun depth fuel rest _ _ => scanValue_bool b depth fuel rest
  | .number n, whole => by
    intro depth fuel rest ends _
    rw [render]
    exact scanValue_number whole fuel ends
  | .string s, _ => by
    intro depth fuel rest _ _
    rw [render]
    exact scanValue_string s fuel rest
  | .array [], _ => by
    intro depth fuel rest _ room
    rw [toList_array_nil] at room ⊢
    obtain ⟨left, rfl⟩ : ∃ left, fuel = left + 1 := ⟨fuel - 1, by simp at room; omega⟩
    have empty := @scanItems_end [] rest left nofun true
    rw [List.nil_append] at empty
    rw [List.cons_append, List.singleton_append, scanValue, skipBlank_cons rfl]
    simp only [empty]
    rfl
  | .array (item :: items), whole => by
    intro depth fuel rest _ room
    rw [toList_array_cons, List.cons_append, List.append_assoc, List.append_assoc] at room ⊢
    rw [List.length_cons, List.length_append, List.length_append] at room
    obtain ⟨c, chars, start, -, dark, more⟩ :=
      @exists_start spacing item (IsWhole.isInteger whole.1) (depth + 1)
    have filled : 0 < (render spacing item (depth + 1)).toList.length := start ▸ Nat.succ_pos _
    obtain ⟨left, rfl⟩ : ∃ left, fuel = left + 3 := ⟨fuel - 3, by omega⟩
    have ends := endsNumber_closing blank depth ']' rfl (renderItems spacing items (depth + 1)) rest
    have first := scanValue_render blank item whole.1 (depth + 1) (left + 1) _ ends (by
      rw [List.length_append]
      omega)
    have others := scanItems_closing blank items whole.2 depth left rest (by omega)
    rw [start, List.cons_append] at first ⊢
    rw [scanValue, skipBlank_cons rfl]
    simp only [scanItems_first dark more (blank.newline (depth + 1)) first others]
    rfl
  | .object [], _ => by
    intro depth fuel rest _ room
    rw [toList_object_nil] at room ⊢
    obtain ⟨left, rfl⟩ : ∃ left, fuel = left + 1 := ⟨fuel - 1, by simp at room; omega⟩
    have empty := @scanMembers_end [] rest left nofun true
    rw [List.nil_append] at empty
    rw [List.cons_append, List.singleton_append, scanValue, skipBlank_cons rfl]
    simp only [empty]
    rfl
  | .object ((key, value) :: members), whole => by
    intro depth fuel rest _ room
    rw [toList_object_cons, List.cons_append, List.append_assoc, List.cons_append,
      List.cons_append, List.append_assoc] at room ⊢
    rw [List.length_cons, List.length_append, List.length_cons, List.length_append] at room
    have ends := endsNumber_closing blank depth '}' rfl (renderMembers spacing members (depth + 1))
      rest
    obtain ⟨gap, blanks, sized, named⟩ := exists_scanString_member blank key value (depth + 1)
      (closing spacing depth '}' (renderMembers spacing members (depth + 1)) ++ rest)
    obtain ⟨left, rfl⟩ : ∃ left, fuel = left + 3 := ⟨fuel - 3, by omega⟩
    have first := scanValue_render blank value whole.1 (depth + 1) (left + 1) _ ends (by
      rw [List.length_append]
      omega)
    have others := scanMembers_closing blank members whole.2 depth left rest (by omega)
    rw [← scanValue_append blanks] at first
    rw [scanValue, skipBlank_cons rfl]
    simp only [scanMembers_first (blank.newline (depth + 1)) named first others, Except.map,
      String.ofList_toList]
    rfl
termination_by structural json => json

theorem scanItems_closing (blank : spacing.IsBlank) : (items : List Json) → ItemsAreWhole items →
    ∀ depth fuel rest,
      2 * (closing spacing depth ']' (renderItems spacing items (depth + 1)) ++ rest).length ≤
        fuel →
      scanItems (fuel + 2) false
          (closing spacing depth ']' (renderItems spacing items (depth + 1)) ++ rest) =
        (Draft.ofItems items, none, some rest)
  | [], _ => by
    intro depth fuel rest _
    rw [renderItems, closing, List.append_assoc, List.singleton_append]
    exact scanItems_end (blank.newline depth) false
  | item :: items, whole => by
    intro depth fuel rest room
    rw [renderItems, closing, List.cons_append, List.append_assoc, List.append_assoc] at room ⊢
    rw [List.length_cons, List.length_append, List.length_append] at room
    obtain ⟨c, chars, start, -, dark, more⟩ :=
      @exists_start spacing item (IsWhole.isInteger whole.1) (depth + 1)
    have filled : 0 < (render spacing item (depth + 1)).toList.length := start ▸ Nat.succ_pos _
    obtain ⟨left, rfl⟩ : ∃ left, fuel = left + 1 := ⟨fuel - 1, by omega⟩
    have ends := endsNumber_closing blank depth ']' rfl (renderItems spacing items (depth + 1)) rest
    have first := scanValue_render blank item whole.1 (depth + 1) (left + 1) _ ends (by
      rw [List.length_append]
      omega)
    have others := scanItems_closing blank items whole.2 depth left rest (by omega)
    rw [start, List.cons_append] at first ⊢
    exact scanItems_next dark more (blank.newline (depth + 1)) first others
termination_by structural items => items

theorem scanMembers_closing (blank : spacing.IsBlank) : (members : List (String × Json)) →
    MembersAreWhole members → ∀ depth fuel rest,
      2 * (closing spacing depth '}' (renderMembers spacing members (depth + 1)) ++
        rest).length ≤ fuel →
      scanMembers (fuel + 2) false
          (closing spacing depth '}' (renderMembers spacing members (depth + 1)) ++ rest) =
        (Draft.ofMembers members, none, some rest)
  | [], _ => by
    intro depth fuel rest _
    rw [renderMembers, closing, List.append_assoc, List.singleton_append]
    exact scanMembers_end (blank.newline depth) false
  | (key, value) :: members, whole => by
    intro depth fuel rest room
    rw [renderMembers, closing, toList_member, List.cons_append, List.append_assoc,
      List.cons_append, List.cons_append, List.append_assoc] at room ⊢
    rw [List.length_cons, List.length_append, List.length_cons, List.length_append] at room
    have ends := endsNumber_closing blank depth '}' rfl (renderMembers spacing members (depth + 1))
      rest
    obtain ⟨gap, blanks, sized, named⟩ := exists_scanString_member blank key value (depth + 1)
      (closing spacing depth '}' (renderMembers spacing members (depth + 1)) ++ rest)
    obtain ⟨left, rfl⟩ : ∃ left, fuel = left + 1 := ⟨fuel - 1, by omega⟩
    have first := scanValue_render blank value whole.1 (depth + 1) (left + 1) _ ends (by
      rw [List.length_append]
      omega)
    have others := scanMembers_closing blank members whole.2 depth left rest (by omega)
    rw [← scanValue_append blanks] at first
    rw [scanMembers_next (blank.newline (depth + 1)) named first others]
    simp only [Except.map, String.ofList_toList]
    rfl
termination_by structural members => members

end

end

/-! ## Parsing -/

open Outcome

/-- The value of a text is its document, once nothing but blanks follow. -/
theorem parse_eq_ok {text : String} {json : Json} :
    parse text = .ok json ↔ ∃ document,
      (Scan.scan text).1.read Draft.textRoom [] = .ok document ∧
      ((Scan.scan text).2.map Scan.skipBlank).getD [] = [] ∧ document.merge = json := by
  unfold parse
  generalize Scan.scan text = scanned
  obtain ⟨draft, rest⟩ := scanned
  simp only
  cases draft.read Draft.textRoom [] with
  | error located => simp
  | ok document =>
    cases (rest.map Scan.skipBlank).getD [] with
    | nil => simp [pure_eq_ok]
    | cons c rest => simp

/-- A value that is parsed as it is printed, with so many brackets inside one another at most. -/
structure IsReadable (json : Json) (limit : Nat) : Prop where
  whole : json.IsWhole
  distinct : json.hasDistinctKeys = true
  shallow : json.depth ≤ limit

theorem readable_int {i : Int} (lower : minSigned ≤ i) (upper : i < (2 ^ (64 : Nat) : Nat)) :
    (Json.int i).IsReadable 0 :=
  ⟨⟨lower, upper⟩, rfl, Nat.le_refl 0⟩

theorem readable_string (text : String) : (Json.string text).IsReadable 0 :=
  ⟨trivial, rfl, Nat.le_refl 0⟩

theorem readable_array {items : List Json} {limit : Nat}
    (each : ∀ item ∈ items, item.IsReadable limit) : (Json.array items).IsReadable (limit + 1) := by
  refine ⟨?_, ?_, Nat.succ_le_succ (itemsDepth_le.2 fun item member => (each item member).shallow)⟩
  · induction items with
    | nil => trivial
    | cons item rest ih =>
      obtain ⟨here, below⟩ := List.forall_mem_cons.1 each
      exact ⟨here.whole, ih below⟩
  · induction items with
    | nil => rfl
    | cons item rest ih =>
      obtain ⟨here, below⟩ := List.forall_mem_cons.1 each
      exact Bool.and_eq_true_iff.2 ⟨here.distinct, ih below⟩

theorem readable_object {members : Record Json} {limit : Nat}
    (unique : (Record.keys members).Nodup) (each : ∀ entry ∈ members, entry.2.IsReadable limit) :
    (Json.object members).IsReadable (limit + 1) := by
  refine ⟨?_, Bool.and_eq_true_iff.2 ⟨decide_eq_true unique, ?_⟩,
    Nat.succ_le_succ (membersDepth_le.2 fun entry member => (each entry member).shallow)⟩
  · clear unique
    induction members with
    | nil => trivial
    | cons entry rest ih =>
      obtain ⟨here, below⟩ := List.forall_mem_cons.1 each
      exact ⟨here.whole, ih below⟩
  · clear unique
    induction members with
    | nil => rfl
    | cons entry rest ih =>
      obtain ⟨here, below⟩ := List.forall_mem_cons.1 each
      exact Bool.and_eq_true_iff.2 ⟨here.distinct, ih below⟩

theorem IsReadable.mono {json : Json} {limit limit' : Nat} (readable : json.IsReadable limit)
    (less : limit ≤ limit') : json.IsReadable limit' :=
  ⟨readable.whole, readable.distinct, Nat.le_trans readable.shallow less⟩

end WireSchema.Json
