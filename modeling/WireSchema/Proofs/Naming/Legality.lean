import WireSchema.Proofs.Naming.Conversion

/-! Legal identifiers. What a converted name becomes with its escapes is an identifier of the emitted
language, unless nothing but underscores is left of it or it is one of two reserved words that have
no escape. -/

namespace WireSchema.Naming

/-- Keywords of the emitted language in its 2024 edition, in use or held back. -/
def reservedWords : List String :=
  ["as", "async", "await", "break", "const", "continue", "crate", "dyn", "else", "enum", "extern",
   "false", "fn", "for", "if", "impl", "in", "let", "loop", "match", "mod", "move", "mut", "pub",
   "ref", "return", "self", "Self", "static", "struct", "super", "trait", "true", "type", "unsafe",
   "use", "where", "while",
   "abstract", "become", "box", "do", "final", "gen", "macro", "override", "priv", "try", "typeof",
   "unsized", "virtual", "yield"]

/-- Words that the raw mark does not make identifiers. -/
def unusableWords : List String :=
  ["_", "crate", "self", "Self", "super"]

inductive IsLegal : String → Prop where
  | plain {ident : String} (shape : IsIdentifier ident) (solid : ident ≠ "_")
      (free : ident ∉ reservedWords) : IsLegal ident
  | raw {word : String} (shape : IsIdentifier word) (usable : word ∉ unusableWords) :
      IsLegal ("r#" ++ word)

def missedWords : List String :=
  ["abstract", "become"]

/-- No identifier has the raw mark in it. -/
theorem ne_raw {name : String} (identifier : IsIdentifier name) (word : String) :
    name ≠ "r#" ++ word := by
  rintro rfl
  have mark : '#' ∈ ("r#" ++ word).toList := by
    rw [String.toList_append]
    exact List.mem_append_left _ (by decide)
  exact absurd (identifier.isWord mark) (by decide)

theorem isLegal_plain {name : String} (identifier : IsIdentifier name) :
    IsLegal name ↔ name ≠ "_" ∧ name ∉ reservedWords := by
  refine ⟨fun legal => ?_, fun ⟨solid, free⟩ => .plain identifier solid free⟩
  generalize same : name = ident at legal
  cases legal with
  | plain _ solid free => exact ⟨solid, free⟩
  | raw => exact absurd same (ne_raw identifier _)

/-! ## Fields and modules -/

theorem isLegal_escapeKeyword {name : String} (identifier : IsIdentifier name) :
    IsLegal (escapeKeyword name) ↔ name ≠ "_" ∧ name ∉ missedWords := by
  rw [escapeKeyword]
  split
  next path =>
    have all : ∀ word ∈ pathKeywords, (isIdentifier (word ++ "_") = true ∧ word ++ "_" ≠ "_" ∧
        word ++ "_" ∉ reservedWords) ∧ word ≠ "_" ∧ word ∉ missedWords := by decide
    obtain ⟨⟨shape, solid, free⟩, kept⟩ := all name (List.contains_iff_mem.1 path)
    exact iff_of_true (.plain (isIdentifier_iff.1 shape) solid free) kept
  next open' =>
    have usual : name ∉ pathKeywords := fun path => open' (List.contains_iff_mem.2 path)
    split
    next keyword =>
      have all : ∀ word ∈ keywords, word ∉ pathKeywords →
          word ∉ unusableWords ∧ word ≠ "_" ∧ word ∉ missedWords := by decide
      obtain ⟨usable, kept⟩ := all name (List.contains_iff_mem.1 keyword) usual
      exact iff_of_true (.raw identifier usable) kept
    next plain =>
      have unlisted : name ∉ keywords := fun keyword => plain (List.contains_iff_mem.2 keyword)
      have covered : ∀ word ∈ reservedWords,
          word ∈ pathKeywords ∨ word ∈ keywords ∨ word ∈ missedWords := by decide
      have reserved : ∀ word ∈ missedWords, word ∈ reservedWords := by decide
      rw [isLegal_plain identifier]
      refine and_congr_right fun _ => not_congr ⟨fun word => ?_, reserved name⟩
      obtain path | keyword | missed := covered name word
      · exact absurd path usual
      · exact absurd keyword unlisted
      · exact missed

/-! ## Types and variants -/

theorem isIdentifier_pascalCase {name : String} (identifier : IsIdentifier name) :
    IsIdentifier (pascalCase name) ∧ ∀ c ∈ (pascalCase name).toList.head?,
      c.isUpper = true ∨ c = '_' := by
  have all := isWord_of_mem_pascalChars fun _ => identifier.isWord
  obtain ⟨first, rest, same, start⟩ := exists_start_pascalChars fun _ => identifier.isWord
  have chars : (pascalCase name).toList = first :: rest := by
    rw [pascalCase, String.toList_ofList, same]
  have initial : first.isUpper = true ∨ first = '_' := start.imp_right And.left
  refine ⟨⟨first, rest, chars, ?_, fun c member => all c (same ▸ List.mem_cons_of_mem _ member)⟩, ?_⟩
  · obtain upper | rfl := initial
    · exact isInitial_of_isUpper upper
    · exact .inr (.inr rfl)
  · rw [chars]
    rintro c ⟨⟩
    exact initial

/-- Only a name of underscores has no word to keep. -/
theorem pascalCase_eq_underscore {name : String} (identifier : IsIdentifier name) :
    pascalCase name = "_" ↔ ∀ c ∈ name.toList, c = '_' := by
  rw [pascalCase, ← String.toList_inj, String.toList_ofList]
  exact pascalChars_eq_underscore fun _ => identifier.isWord

theorem isLegal_typeIdent {name : String} (identifier : IsIdentifier name) :
    IsLegal (typeIdent name) ↔ ∃ c ∈ name.toList, c ≠ '_' := by
  have marks := not_congr (pascalCase_eq_underscore identifier)
  simp only [not_forall, exists_prop] at marks
  rw [← marks]
  obtain ⟨shape, start⟩ := isIdentifier_pascalCase identifier
  rw [typeIdent]
  generalize pascalCase name = ident at shape start
  split
  next taken =>
    have all : ∀ word ∈ takenTypeNames, (isIdentifier (word ++ "_") = true ∧ word ++ "_" ≠ "_" ∧
        word ++ "_" ∉ reservedWords) ∧ word ≠ "_" := by decide
    obtain ⟨⟨shape, solid, free⟩, kept⟩ := all ident (List.contains_iff_mem.1 taken)
    exact iff_of_true (.plain (isIdentifier_iff.1 shape) solid free) kept
  next plain =>
    -- Of all reserved words one starts with a capital, and that is taken.
    have lower : ∀ word ∈ reservedWords, word ∈ takenTypeNames ∨
        word.toList.head?.any (fun c => !c.isUpper && c != '_') = true := by decide
    rw [isLegal_plain shape]
    refine and_iff_left fun reserved => ?_
    obtain taken | small := lower ident reserved
    · exact plain (List.contains_iff_mem.2 taken)
    · obtain ⟨c, first, other⟩ := (Option.any_eq_true _ _).1 small
      obtain upper | rfl := start c first
      · simp [upper] at other
      · simp at other

/-- Which names are given legal identifiers. -/
theorem isLegal_idents {name : String} (identifier : IsIdentifier name) :
    (IsLegal (fieldIdent name) ↔
      snakeCase name ≠ "_" ∧ snakeCase name ≠ "abstract" ∧ snakeCase name ≠ "become") ∧
    (IsLegal (typeIdent name) ↔ ∃ c ∈ name.toList, c ≠ '_') := by
  refine ⟨?_, isLegal_typeIdent identifier⟩
  rw [fieldIdent, isLegal_escapeKeyword (isIdentifier_snakeCase identifier)]
  simp [missedWords]

/-- A keyword without a raw form, as a field and as a type. -/
theorem isLegal_idents_self : IsLegal (fieldIdent "self") ∧ IsLegal (typeIdent "self") :=
  have ⟨field, type⟩ := isLegal_idents (isIdentifier_iff.1 rfl : IsIdentifier "self")
  ⟨field.2 (by decide), type.2 ⟨'s', by decide⟩⟩

theorem not_isLegal_abstract : ¬∀ name, IsIdentifier name →
    IsLegal (fieldIdent name) ∧ IsLegal (typeIdent name) := by
  intro all
  have identifier : IsIdentifier "abstract" := isIdentifier_iff.1 rfl
  exact ((isLegal_plain identifier).1 (all _ identifier).1).2 (by decide)

end WireSchema.Naming
