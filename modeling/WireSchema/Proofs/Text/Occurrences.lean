import Mathlib.Data.List.Infix

/-! Occurrences of a pattern in a text. Some fixed texts seal off what stands around them, so that
no occurrence crosses one of their ends. Where every hole of a text is between such seals, the
counts of its pieces add up. -/

namespace WireSchema.Occurrences

variable {pattern : List Char}

/-- How often a pattern that is not empty stands in a text, at any place. -/
def count (pattern : List Char) : List Char → Nat
  | [] => 0
  | c :: rest => count pattern rest + if pattern.isPrefixOf (c :: rest) then 1 else 0

/-- A text without the first character of a pattern is no start of an occurrence. -/
theorem count_append_of_notMem {first : Char} {others front : List Char}
    (absent : first ∉ front) (text : List Char) :
    count (first :: others) (front ++ text) = count (first :: others) text := by
  induction front with
  | nil => rfl
  | cons c rest ih =>
    have other : (first == c) = false := beq_false_of_ne (List.ne_of_not_mem_cons absent)
    rw [List.cons_append, count, ih (List.not_mem_of_not_mem_cons absent), List.isPrefixOf, other]
    rfl

theorem count_eq_zero {c : Char} {text : List Char} (needed : c ∈ pattern) (absent : c ∉ text) :
    count pattern text = 0 := by
  induction text with
  | nil => rfl
  | cons d rest ih =>
    have elsewhere : ¬pattern.isPrefixOf (d :: rest) := fun here =>
      absent ((List.isPrefixOf_iff_prefix.1 here).subset needed)
    rw [count, ih (List.not_mem_of_not_mem_cons absent), if_neg elsewhere]

/-- A longer pattern is found no more often. -/
theorem count_le_of_starts {start : List Char} (starts : start <+: pattern) (text : List Char) :
    count pattern text ≤ count start text := by
  induction text with
  | nil => exact Nat.le_refl 0
  | cons c rest ih =>
    rw [count, count]
    by_cases here : pattern.isPrefixOf (c :: rest) = true
    · have shorter : start.isPrefixOf (c :: rest) = true :=
        List.isPrefixOf_iff_prefix.2 (starts.trans (List.isPrefixOf_iff_prefix.1 here))
      rw [if_pos here, if_pos shorter]
      omega
    · rw [if_neg here]
      omega

/-- Counts add up where no occurrence begins in one text and goes on in the next one. -/
theorem count_append {text next : List Char}
    (apart : ∀ front back, pattern = front ++ back → front ≠ [] → back ≠ [] → front <:+ text →
      ¬back <+: next) : count pattern (text ++ next) = count pattern text + count pattern next := by
  induction text with
  | nil => exact (Nat.zero_add _).symm
  | cons c rest ih =>
    have below := ih fun front back split some more ending =>
      apart front back split some more (ending.trans (List.suffix_cons c rest))
    have here : pattern.isPrefixOf (c :: (rest ++ next)) = pattern.isPrefixOf (c :: rest) := by
      rw [Bool.eq_iff_iff, List.isPrefixOf_iff_prefix, List.isPrefixOf_iff_prefix]
      refine ⟨fun starts => ?_, fun starts => starts.trans (List.prefix_append (c :: rest) next)⟩
      rcases List.prefix_or_prefix_of_prefix starts (List.prefix_append (c :: rest) next) with
        inside | ⟨back, split⟩
      · exact inside
      · subst split
        by_cases none : back = []
        · rw [none, List.append_nil]
        · exact absurd ((List.prefix_append_right_inj (c :: rest)).1 starts)
            (apart (c :: rest) back rfl (List.cons_ne_nil c rest) none List.suffix_rfl)
    rw [List.cons_append, count, count, here, below]
    omega

/-! ## Seals -/

def agree (first second : List Char) : Bool :=
  first.isPrefixOf second || second.isPrefixOf first

/-- Whether a text is neither the rest of an occurrence that began before it, nor a part of it. -/
def isSealedBefore (pattern chars : List Char) : Bool :=
  pattern.tail.tails.all fun back => back.isEmpty || !agree back chars

def isSealedAfter (pattern chars : List Char) : Bool :=
  pattern.dropLast.inits.all fun front => front.isEmpty || !agree front.reverse chars.reverse

theorem agree_of_starts {first second text : List Char} (starts : first <+: text)
    (starts' : second <+: text) : agree first second = true := by
  rw [agree, Bool.or_eq_true, List.isPrefixOf_iff_prefix, List.isPrefixOf_iff_prefix]
  exact List.prefix_or_prefix_of_prefix starts starts'

theorem count_append_sealedBefore {chars : List Char}
    (sealed : isSealedBefore pattern chars = true) (text next : List Char) :
    count pattern (text ++ (chars ++ next)) =
      count pattern text + count pattern (chars ++ next) := by
  refine count_append fun front back split some more _ starts => ?_
  have inside : back ∈ pattern.tail.tails := by
    rw [List.mem_tails, split, List.tail_append_of_ne_nil some]
    exact List.suffix_append front.tail back
  have apart := List.all_eq_true.1 sealed back inside
  rw [agree_of_starts starts (List.prefix_append chars next), Bool.not_true, Bool.or_false,
    List.isEmpty_iff] at apart
  exact more apart

theorem count_sealedAfter_append {chars : List Char} (sealed : isSealedAfter pattern chars = true)
    (next : List Char) :
    count pattern (chars ++ next) = count pattern chars + count pattern next := by
  refine count_append fun front back split some more ends _ => ?_
  have inside : front ∈ pattern.dropLast.inits := by
    rw [List.mem_inits, split, List.dropLast_append_of_ne_nil more]
    exact List.prefix_append front back.dropLast
  have apart := List.all_eq_true.1 sealed front inside
  rw [agree_of_starts (List.reverse_prefix.2 ends) List.prefix_rfl, Bool.not_true, Bool.or_false,
    List.isEmpty_iff] at apart
  exact some apart

/-! ## Texts in pieces -/

def occurrences (pattern text : String) : Nat :=
  count pattern.toList text.toList

example : occurrences "oo" "ooo foo" = 3 := by decide

inductive Piece where
  | fixed (chars : List Char)
  | hole (text : String)

namespace Piece

def text : Piece → String
  | fixed chars => String.ofList chars
  | hole text => text

def areSealed (pattern : String) : List Piece → Bool
  | [] | [hole _] => true
  | fixed chars :: rest =>
    isSealedBefore pattern.toList chars && isSealedAfter pattern.toList chars &&
      areSealed pattern rest
  | hole _ :: fixed chars :: rest => areSealed pattern (fixed chars :: rest)
  | hole _ :: hole _ :: _ => false

def total (pattern : String) : List Piece → Nat
  | [] => 0
  | fixed chars :: rest => total pattern rest + count pattern.toList chars
  | hole text :: rest => occurrences pattern text + total pattern rest

variable {pattern : String}

theorem areSealed_fixed {chars : List Char} {rest : List Piece} :
    areSealed pattern (fixed chars :: rest) = true ↔
      isSealedBefore pattern.toList chars = true ∧ isSealedAfter pattern.toList chars = true ∧
        areSealed pattern rest = true := by
  rw [areSealed, Bool.and_eq_true, Bool.and_eq_true, and_assoc]

theorem count_flatMap {pieces : List Piece} (apart : areSealed pattern pieces = true) :
    count pattern.toList (pieces.flatMap fun piece => piece.text.toList) =
      total pattern pieces := by
  induction pieces with
  | nil => rfl
  | cons piece rest ih =>
    rw [List.flatMap_cons]
    cases piece with
    | fixed chars =>
      obtain ⟨-, after, below⟩ := areSealed_fixed.1 apart
      rw [text, String.toList_ofList, count_sealedAfter_append after, ih below, total, Nat.add_comm]
    | hole here =>
      match rest with
      | [] => exact congrArg (count pattern.toList) (List.append_nil here.toList)
      | hole _ :: _ => cases apart
      | fixed chars :: others =>
        rw [areSealed] at apart
        rw [total, ← ih apart, List.flatMap_cons, text, text, String.toList_ofList]
        exact count_append_sealedBefore (areSealed_fixed.1 apart).1 _ _

end Piece

def joined (first : Piece) (others : List Piece) : String :=
  others.foldl (fun text piece => text ++ piece.text) first.text

theorem toList_joined (first : Piece) (others : List Piece) : (joined first others).toList =
    (first :: others).flatMap fun piece => piece.text.toList := by
  have left (front : String) : (others.foldl (fun text piece => text ++ piece.text) front).toList =
      front.toList ++ others.flatMap fun piece => piece.text.toList := by
    induction others generalizing front with
    | nil => exact (List.append_nil front.toList).symm
    | cons piece rest ih =>
      rw [List.foldl_cons, ih, String.toList_append, List.append_assoc, List.flatMap_cons]
  exact left first.text

/-- The count of a text is the sum of those of its parts, if its holes are sealed off. -/
theorem occurrences_joined {pattern : String} (first : Piece) (others : List Piece)
    (apart : Piece.areSealed pattern (first :: others) = true) :
    occurrences pattern (joined first others) = Piece.total pattern (first :: others) := by
  rw [occurrences, toList_joined, Piece.count_flatMap apart]

end WireSchema.Occurrences
