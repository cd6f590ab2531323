import WireSchema.Proofs.Json.Text

/-! Values with one text. Two values whose numbers are integers, of whatever size, are written the
same only if they are the same. -/

namespace WireSchema

namespace Json

mutual

def IsIntegral : Json → Prop
  | .number n => n.IsInteger
  | .array items => ItemsAreIntegral items
  | .object members => MembersAreIntegral members
  | _ => True
termination_by structural json => json

def ItemsAreIntegral : List Json → Prop
  | [] => True
  | item :: rest => IsIntegral item ∧ ItemsAreIntegral rest
termination_by structural items => items

def MembersAreIntegral : List (String × Json) → Prop
  | [] => True
  | (_, value) :: rest => IsIntegral value ∧ MembersAreIntegral rest
termination_by structural members => members

end

variable {spacing : Spacing} {rest rest' : List Char}

open Scan

/-! ## Tokens -/

theorem eq_of_toDigits {n n' : Nat} (ends : EndsNumber rest) (ends' : EndsNumber rest')
    (same : Nat.toDigits 10 n ++ rest = Nat.toDigits 10 n' ++ rest') : n = n' ∧ rest = rest' := by
  obtain ⟨digits, left⟩ := digits_of_toDigits (n := n) ends
  obtain ⟨digits', left'⟩ := digits_of_toDigits (n := n') ends'
  rw [same, digits'] at digits
  rw [same, left'] at left
  refine ⟨?_, left.symm⟩
  rw [← Numeral.digitsValue_toDigits n, ← digits, Numeral.digitsValue_toDigits]

theorem toDigits_ne_minus {n n' : Nat} :
    Nat.toDigits 10 n ++ rest ≠ '-' :: (Nat.toDigits 10 n' ++ rest') := by
  obtain ⟨c, digits, spelled, digit⟩ := exists_first_digit n
  rw [spelled, List.cons_append]
  exact fun same => digit_ne digit rfl (List.cons.inj same).1

theorem eq_of_integer {i i' : Int} (ends : EndsNumber rest) (ends' : EndsNumber rest')
    (same : (toString i).toList ++ rest = (toString i').toList ++ rest') : i = i' ∧ rest = rest' := by
  cases i with
  | ofNat n =>
    cases i' with
    | ofNat n' =>
      rw [Numeral.toList_ofNat, Numeral.toList_ofNat] at same
      obtain ⟨rfl, rfl⟩ := eq_of_toDigits ends ends' same
      exact ⟨rfl, rfl⟩
    | negSucc n' =>
      rw [Numeral.toList_ofNat, Numeral.toList_negSucc] at same
      exact absurd same toDigits_ne_minus
  | negSucc n =>
    cases i' with
    | ofNat n' =>
      rw [Numeral.toList_ofNat, Numeral.toList_negSucc] at same
      exact absurd same.symm toDigits_ne_minus
    | negSucc n' =>
      rw [Numeral.toList_negSucc, Numeral.toList_negSucc, List.cons_append, List.cons_append] at same
      obtain ⟨numbers, rfl⟩ := eq_of_toDigits ends ends' (List.cons.inj same).2
      exact ⟨congrArg Int.negSucc (Nat.succ.inj numbers), rfl⟩

/-- A text between quotes tells where it ends. -/
theorem eq_of_stringChars {text text' : List Char}
    (same : text.flatMap escapeChar ++ '"' :: rest = text'.flatMap escapeChar ++ '"' :: rest') :
    text = text' ∧ rest = rest' := by
  have scanned := scanString_stringChars text rest
  rw [same, scanString_stringChars] at scanned
  simpa [eq_comm] using scanned

/-! ## First characters -/

theorem IsIntegral.isInteger {json : Json} (integral : json.IsIntegral) :
    ∀ n, json = .number n → n.IsInteger := by
  rintro n rfl
  exact integral

theorem kindName_eq_of_render {a b : Json} (integral : a.IsIntegral) (integral' : b.IsIntegral)
    {depth : Nat}
    (same : (render spacing a depth).toList ++ rest = (render spacing b depth).toList ++ rest') :
    a.kindName = b.kindName := by
  obtain ⟨c, text, spelled, kind, -⟩ := @exists_start spacing a integral.isInteger depth
  obtain ⟨c', text', spelled', kind', -⟩ := @exists_start spacing b integral'.isInteger depth
  rw [spelled, spelled', List.cons_append, List.cons_append] at same
  rw [← kind, ← kind', (List.cons.inj same).1]

/-- Blanks do not stand for a character that is none. -/
theorem ne_of_blank {gap text : List Char} {c mark : Char}
    (blank : ∀ c ∈ gap, isBlank c = true) (dark : isBlank mark = false) (other : c ≠ mark) :
    mark :: rest ≠ gap ++ c :: text := by
  intro same
  cases gap with
  | nil => exact other (List.cons.inj same).1.symm
  | cons c' gap =>
    rw [List.cons_append] at same
    have here := blank c' List.mem_cons_self
    rw [← (List.cons.inj same).1, dark] at here
    cases here

/-! ## Values -/

section

variable (blank : spacing.IsBlank)
include blank

theorem render_array_nil_ne {item : Json} (integral : item.IsIntegral) (items : List Json)
    (depth : Nat) :
    (render spacing (.array []) depth).toList ++ rest ≠
      (render spacing (.array (item :: items)) depth).toList ++ rest' := by
  obtain ⟨c, text, spelled, -, -, other⟩ :=
    @exists_start spacing item integral.isInteger (depth + 1)
  rw [toList_array_nil, toList_array_cons, spelled]
  simp only [List.cons_append, List.nil_append, List.append_assoc]
  exact fun same => ne_of_blank (blank.newline (depth + 1)) rfl other (List.cons.inj same).2

theorem render_object_nil_ne (member : String × Json) (members : List (String × Json))
    (depth : Nat) :
    (render spacing (.object []) depth).toList ++ rest ≠
      (render spacing (.object (member :: members)) depth).toList ++ rest' := by
  rw [toList_object_nil, toList_object_cons]
  simp only [List.cons_append, List.nil_append, List.append_assoc]
  exact fun same => ne_of_blank (blank.newline (depth + 1)) rfl (by decide) (List.cons.inj same).2

theorem closing_nil_ne {depth : Nat} {closed : Char} (other : closed ≠ ',') (part : String)
    (parts : List String) :
    closing spacing depth closed [] ++ rest ≠
      closing spacing depth closed (part :: parts) ++ rest' := by
  rw [closing, closing, List.append_assoc, List.singleton_append, List.cons_append]
  exact fun same => ne_of_blank (blank.newline depth) rfl other same.symm

/-- Arrays of one text have the same text after any of their items. -/
theorem closing_eq_of_array {items items' : List Json} (integral : ItemsAreIntegral items)
    (integral' : ItemsAreIntegral items') {depth : Nat}
    (same : (render spacing (.array items) depth).toList ++ rest =
      (render spacing (.array items') depth).toList ++ rest') :
    closing spacing depth ']' (renderItems spacing items (depth + 1)) ++ rest =
      closing spacing depth ']' (renderItems spacing items' (depth + 1)) ++ rest' := by
  cases items with
  | nil =>
    cases items' with
    | nil => rw [List.append_cancel_left same]
    | cons item' items' => exact absurd same (render_array_nil_ne blank integral'.1 items' depth)
  | cons item items =>
    cases items' with
    | nil => exact absurd same.symm (render_array_nil_ne blank integral.1 items depth)
    | cons item' items' =>
      rw [toList_array_cons, toList_array_cons] at same
      exact congrArg (',' :: ·) (List.cons.inj same).2

theorem closing_eq_of_object {members members' : List (String × Json)} {depth : Nat}
    (same : (render spacing (.object members) depth).toList ++ rest =
      (render spacing (.object members') depth).toList ++ rest') :
    closing spacing depth '}' (renderMembers spacing members (depth + 1)) ++ rest =
      closing spacing depth '}' (renderMembers spacing members' (depth + 1)) ++ rest' := by
  cases members with
  | nil =>
    cases members' with
    | nil => rw [List.append_cancel_left same]
    | cons member' members' =>
      exact absurd same (render_object_nil_ne blank member' members' depth)
  | cons member members =>
    cases members' with
    | nil => exact absurd same.symm (render_object_nil_ne blank member members depth)
    | cons member' members' =>
      rw [toList_object_cons, toList_object_cons] at same
      rw [renderMembers, renderMembers, closing, closing, toList_member, toList_member]
      exact congrArg (',' :: ·) (List.cons.inj same).2

/- Follows the recursion of the printer, over the first of the two values. -/
mutual

theorem eq_of_render_append : (a b : Json) → a.IsIntegral → b.IsIntegral → ∀ depth rest rest',
    EndsNumber rest → EndsNumber rest' →
      (render spacing a depth).toList ++ rest = (render spacing b depth).toList ++ rest' →
      a = b ∧ rest = rest'
  | .null, b, integral, integral' => by
    intro depth rest rest' _ _ same
    have kinds := kindName_eq_of_render integral integral' same
    cases b with
    | null => exact ⟨rfl, List.append_cancel_left same⟩
    | _ => simp [kindName] at kinds
  | .bool value, b, integral, integral' => by
    intro depth rest rest' _ _ same
    have kinds := kindName_eq_of_render integral integral' same
    cases b with
    | bool value' =>
      rw [toList_bool, toList_bool] at same
      cases value <;> cases value' <;> simp_all
    | _ => simp [kindName] at kinds
  | .number (.int i), b, integral, integral' => by
    intro depth rest rest' ends ends' same
    have kinds := kindName_eq_of_render integral integral' same
    cases b with
    | number n =>
      cases n with
      | int i' =>
        rw [render, render, numberText, numberText] at same
        obtain ⟨rfl, rfl⟩ := eq_of_integer ends ends' same
        exact ⟨rfl, rfl⟩
      | float x => exact integral'.elim
    | _ => simp [kindName] at kinds
  | .string text, b, integral, integral' => by
    intro depth rest rest' _ _ same
    have kinds := kindName_eq_of_render integral integral' same
    cases b with
    | string text' =>
      rw [render, render, toList_quoteString, toList_quoteString] at same
      simp only [List.cons_append, List.append_assoc, List.nil_append] at same
      obtain ⟨chars, rfl⟩ := eq_of_stringChars (List.cons.inj same).2
      exact ⟨congrArg Json.string (String.toList_inj.1 chars), rfl⟩
    | _ => simp [kindName] at kinds
  | .array items, b, integral, integral' => by
    intro depth rest rest' _ _ same
    have kinds := kindName_eq_of_render integral integral' same
    cases b with
    | array items' =>
      obtain ⟨rfl, rfl⟩ := eq_of_closing_items items items' integral integral' depth rest rest'
        (closing_eq_of_array blank integral integral' same)
      exact ⟨rfl, rfl⟩
    | _ => simp [kindName] at kinds
  | .object members, b, integral, integral' => by
    intro depth rest rest' _ _ same
    have kinds := kindName_eq_of_render integral integral' same
    cases b with
    | object members' =>
      obtain ⟨rfl, rfl⟩ := eq_of_closing_members members members' integral integral' depth rest rest'
        (closing_eq_of_object blank same)
      exact ⟨rfl, rfl⟩
    | _ => simp [kindName] at kinds
termination_by structural a => a

theorem eq_of_closing_items : (items items' : List Json) → ItemsAreIntegral items →
    ItemsAreIntegral items' → ∀ depth rest rest',
      closing spacing depth ']' (renderItems spacing items (depth + 1)) ++ rest =
        closing spacing depth ']' (renderItems spacing items' (depth + 1)) ++ rest' →
      items = items' ∧ rest = rest'
  | [], [], _, _ => fun _ _ _ same => ⟨rfl, List.append_cancel_left same⟩
  | [], _ :: _, _, _ => fun _ _ _ same => absurd same (closing_nil_ne blank (by decide) _ _)
  | _ :: _, [], _, _ => fun _ _ _ same => absurd same.symm (closing_nil_ne blank (by decide) _ _)
  | item :: items, item' :: items', integral, integral' => by
    intro depth rest rest' same
    rw [renderItems, renderItems, closing, closing] at same
    simp only [List.cons_append, List.append_assoc] at same
    have ends := endsNumber_closing blank depth ']' rfl
    obtain ⟨rfl, others⟩ := eq_of_render_append item item' integral.1 integral'.1 (depth + 1) _ _
      (ends (renderItems spacing items (depth + 1)) rest)
      (ends (renderItems spacing items' (depth + 1)) rest')
      (List.append_cancel_left (List.cons.inj same).2)
    obtain ⟨rfl, rfl⟩ :=
      eq_of_closing_items items items' integral.2 integral'.2 depth rest rest' others
    exact ⟨rfl, rfl⟩
termination_by structural items => items

theorem eq_of_closing_members : (members members' : List (String × Json)) →
    MembersAreIntegral members → MembersAreIntegral members' → ∀ depth rest rest',
      closing spacing depth '}' (renderMembers spacing members (depth + 1)) ++ rest =
        closing spacing depth '}' (renderMembers spacing members' (depth + 1)) ++ rest' →
      members = members' ∧ rest = rest'
  | [], [], _, _ => fun _ _ _ same => ⟨rfl, List.append_cancel_left same⟩
  | [], _ :: _, _, _ => fun _ _ _ same => absurd same (closing_nil_ne blank (by decide) _ _)
  | _ :: _, [], _, _ => fun _ _ _ same => absurd same.symm (closing_nil_ne blank (by decide) _ _)
  | (key, value) :: members, (key', value') :: members', integral, integral' => by
    intro depth rest rest' same
    rw [renderMembers, renderMembers, closing, closing, toList_member, toList_member] at same
    simp only [memberText, List.cons_append, List.append_assoc] at same
    obtain ⟨keys, values⟩ := eq_of_stringChars
      (List.cons.inj (List.append_cancel_left (List.cons.inj same).2)).2
    have ends := endsNumber_closing blank depth '}' rfl
    obtain ⟨rfl, others⟩ := eq_of_render_append value value' integral.1 integral'.1 (depth + 1) _ _
      (ends (renderMembers spacing members (depth + 1)) rest)
      (ends (renderMembers spacing members' (depth + 1)) rest')
      (List.append_cancel_left values)
    obtain ⟨rfl, rfl⟩ :=
      eq_of_closing_members members members' integral.2 integral'.2 depth rest rest' others
    rw [String.toList_inj.1 keys]
    exact ⟨rfl, rfl⟩
termination_by structural members => members

end

/-- A text that holds nothing but a value tells which. -/
theorem eq_of_render {a b : Json} (integral : a.IsIntegral) (integral' : b.IsIntegral)
    {depth : Nat} (same : render spacing a depth = render spacing b depth) : a = b :=
  (eq_of_render_append blank a b integral integral' depth [] [] nofun nofun (by rw [same])).1

end

theorem isBlank_compact : compactSpacing.IsBlank where
  newline _ _ member := absurd member List.not_mem_nil
  colon := ⟨[], rfl, fun _ member => absurd member List.not_mem_nil⟩

end Json

end WireSchema
