import Mathlib.Data.List.TakeWhile
import WireSchema.Text.Blank

/-! Texts between white space. Trimming takes off all the white space at an end and nothing else. -/

namespace WireSchema.Blank

theorem dropWhile_of_blank {left text : List Char} (blank : ∀ c ∈ left, isBlank c = true)
    (dark : ∀ c ∈ text.head?, isBlank c = false) : (left ++ text).dropWhile isBlank = text := by
  rw [List.dropWhile_append_of_pos blank]
  cases text with
  | nil => rfl
  | cons c rest => rw [List.dropWhile_cons, if_neg (Bool.eq_false_iff.1 (dark c rfl))]

theorem trimEnd_append {text right : List Char} (blank : ∀ c ∈ right, isBlank c = true)
    (dark : ∀ c ∈ text.getLast?, isBlank c = false) : trimEnd (text ++ right) = text := by
  have after : ∀ c ∈ right.reverse, isBlank c = true := fun c member =>
    blank c (List.mem_reverse.1 member)
  have before : ∀ c ∈ text.reverse.head?, isBlank c = false := by
    rw [List.head?_reverse]
    exact dark
  rw [trimEnd, List.reverse_append, dropWhile_of_blank after before, List.reverse_reverse]

end WireSchema.Blank
