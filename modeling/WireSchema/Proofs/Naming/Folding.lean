import WireSchema.Proofs.Naming.Legality

/-! Names up to case and underscores. A conversion moves the underscores of a name and changes the
case of its letters, and it leaves the names it gives as they are. So only names that fold alike
can be converted to one name. -/

namespace WireSchema.Naming

/-! ## Folding -/

def foldChars (name : List Char) : List Char :=
  (name.map Char.toLower).filter (· != '_')

def fold (name : String) : String :=
  String.ofList (foldChars name.toList)

theorem foldChars_append (first second : List Char) :
    foldChars (first ++ second) = foldChars first ++ foldChars second := by
  rw [foldChars, List.map_append, List.filter_append]
  rfl

theorem foldChars_underscore (name : List Char) : foldChars ('_' :: name) = foldChars name := rfl

/-- Letters that differ in case alone fold alike. -/
theorem foldChars_cons {c d : Char} {name other : List Char} (letters : c.toLower = d.toLower)
    (rest : foldChars name = foldChars other) :
    foldChars (c :: name) = foldChars (d :: other) := by
  have first : foldChars [c] = foldChars [d] :=
    congrArg (fun lowered => [lowered].filter (· != '_')) letters
  calc foldChars (c :: name)
    _ = foldChars [c] ++ foldChars name := foldChars_append [c] name
    _ = foldChars [d] ++ foldChars other := by rw [first, rest]
    _ = foldChars (d :: other) := (foldChars_append [d] other).symm

theorem foldChars_filter (name : List Char) :
    foldChars (name.filter (· != '_')) = foldChars name := by
  induction name with
  | nil => rfl
  | cons c rest ih =>
    by_cases mark : c = '_'
    · rw [mark]
      exact ih
    · rw [List.filter_cons_of_pos (by simpa using mark)]
      exact foldChars_cons rfl ih

theorem foldChars_snakeChars (previous : Option Char) (name : List Char) :
    foldChars (snakeChars previous name) = foldChars name := by
  induction name generalizing previous with
  | nil => rfl
  | cons first rest ih =>
    -- A capital folds as its small letter, with or without an underscore before it.
    have lowered : foldChars (first.toLower :: snakeChars (some first) rest) =
        foldChars (first :: rest) :=
      foldChars_cons (toLower_toLower first) (ih (some first))
    rw [snakeChars]
    split
    next =>
      split
      next =>
        rw [foldChars_underscore]
        exact lowered
      next => exact lowered
    next => exact foldChars_cons rfl (ih (some first))

theorem foldChars_capitalize (word : List Char) :
    foldChars (capitalize word) = foldChars word := by
  cases word with
  | nil => rfl
  | cons first rest => exact foldChars_cons (toLower_toUpper first) rfl

theorem foldChars_flatMap_capitalize (words : List (List Char)) :
    foldChars (words.flatMap capitalize) = foldChars words.flatten := by
  induction words with
  | nil => rfl
  | cons word words ih =>
    rw [List.flatMap_cons, List.flatten_cons, foldChars_append, foldChars_append,
      foldChars_capitalize, ih]

theorem foldChars_guardStart (name : List Char) :
    foldChars (guardStart name) = foldChars name := by
  cases name with
  | nil => rfl
  | cons first rest =>
    rw [guardStart]
    split
    next => exact foldChars_underscore _
    next => rfl

theorem foldChars_pascalChars (name : List Char) :
    foldChars (pascalChars name) = foldChars name := by
  calc foldChars (pascalChars name)
    _ = foldChars ((name.splitOn '_').flatMap capitalize) := foldChars_guardStart _
    _ = foldChars (name.splitOn '_').flatten := foldChars_flatMap_capitalize _
    _ = foldChars (name.filter (· != '_')) := by rw [flatten_splitOn]
    _ = foldChars name := foldChars_filter name

theorem fold_snakeCase (name : String) : fold (snakeCase name) = fold name := by
  rw [fold, snakeCase, String.toList_ofList, foldChars_snakeChars, fold]

theorem fold_pascalCase (name : String) : fold (pascalCase name) = fold name := by
  rw [fold, pascalCase, String.toList_ofList, foldChars_pascalChars, fold]

/-! ## Names in snake case -/

theorem snakeChars_of_caseless {previous : Option Char} {name : List Char}
    (caseless : ∀ c ∈ name, c.isUpper = false) : snakeChars previous name = name := by
  induction name generalizing previous with
  | nil => rfl
  | cons first rest ih =>
    obtain ⟨here, below⟩ := List.forall_mem_cons.1 caseless
    rw [snakeChars, if_neg (Bool.eq_false_iff.1 here), ih below]

theorem snakeCase_eq_self_iff {name : String} :
    snakeCase name = name ↔ ∀ c ∈ name.toList, c.isUpper = false := by
  constructor
  · intro same
    rw [← same]
    exact isUpper_of_mem_snakeCase
  · intro caseless
    rw [snakeCase, snakeChars_of_caseless caseless, String.ofList_toList]

/-! ## Names in Pascal case -/

/-- Words run together from a capital on, or from a digit on behind an underscore; an underscore
alone has no words. -/
inductive IsPascal : List Char → Prop where
  | word {first : Char} {rest : List Char} (capital : first.isUpper = true)
      (joined : '_' ∉ rest) : IsPascal (first :: rest)
  | number {digit : Char} {rest : List Char} (start : digit.isDigit = true)
      (joined : '_' ∉ rest) : IsPascal ('_' :: digit :: rest)
  | blank : IsPascal ['_']

theorem notMem_tail_pascalChars {name : List Char} (all : ∀ c ∈ name, IsWord c) :
    '_' ∉ (pascalChars name).tail := by
  have joined : '_' ∉ (name.splitOn '_').flatMap capitalize := fun inside =>
    (isWord_of_mem_words all _ inside).2 rfl
  rw [pascalChars]
  cases words : (name.splitOn '_').flatMap capitalize with
  | nil => exact List.not_mem_nil
  | cons first rest =>
    rw [words] at joined
    rw [guardStart]
    split
    next => exact joined
    next => exact fun inside => joined (List.mem_cons_of_mem first inside)

theorem isPascal_pascalChars {name : List Char} (all : ∀ c ∈ name, IsWord c) :
    IsPascal (pascalChars name) := by
  obtain ⟨first, rest, same, start⟩ := exists_start_pascalChars all
  have joined := notMem_tail_pascalChars all
  rw [same] at joined ⊢
  obtain capital | ⟨rfl, digits⟩ := start
  · exact .word capital joined
  · cases rest with
    | nil => exact .blank
    | cons digit rest =>
      exact .number (digits digit rfl) fun inside => joined (List.mem_cons_of_mem digit inside)

/-- A word that starts with a capital or a digit is its own only word. -/
theorem flatMap_capitalize_splitOn {first : Char} {rest : List Char} (same : first.toUpper = first)
    (letter : first ≠ '_') (joined : '_' ∉ rest) :
    ((first :: rest).splitOn '_').flatMap capitalize = first :: rest := by
  have single : '_' ∉ first :: rest := by
    rw [List.mem_cons, not_or]
    exact ⟨letter.symm, joined⟩
  rw [List.splitOn_eq_singleton single, List.flatMap_singleton, capitalize, same]

theorem pascalChars_of_isPascal {name : List Char} (pascal : IsPascal name) :
    pascalChars name = name := by
  cases pascal with
  | @word first rest capital joined =>
    have plain := isDigit_of_isUpper capital
    rw [pascalChars, flatMap_capitalize_splitOn (toUpper_of_isUpper capital)
      (ne_underscore_of_isUpper capital) joined, guardStart, if_neg (Bool.eq_false_iff.1 plain)]
  | @number digit rest start joined =>
    have letter : digit ≠ '_' := by
      rintro rfl
      cases start
    have words : ('_' :: digit :: rest).splitOn '_' = [] :: (digit :: rest).splitOn '_' := by
      rw [List.splitOn_cons_eq_if_modifyHead, if_pos BEq.rfl]
    rw [pascalChars, words, List.flatMap_cons, capitalize, List.nil_append,
      flatMap_capitalize_splitOn (toUpper_of_isDigit start) letter joined, guardStart,
      if_pos start]
  | blank => rfl

theorem isPascal_pascalCase {name : String} (identifier : IsIdentifier name) :
    IsPascal (pascalCase name).toList := by
  rw [pascalCase, String.toList_ofList]
  exact isPascal_pascalChars fun _ => identifier.isWord

theorem pascalCase_eq_self_iff {name : String} (identifier : IsIdentifier name) :
    pascalCase name = name ↔ IsPascal name.toList := by
  constructor
  · intro same
    rw [← same]
    exact isPascal_pascalCase identifier
  · intro pascal
    rw [pascalCase, pascalChars_of_isPascal pascal, String.ofList_toList]

/-! ## Names that become one -/

theorem fold_underscore (name : String) : fold (name ++ "_") = fold name := by
  have mark : foldChars "_".toList = [] := rfl
  rw [fold, String.toList_append, foldChars_append, mark, List.append_nil, fold]

theorem fold_fileStem {name : String} (identifier : IsIdentifier name) :
    fold (fileStem (fieldIdent name)) = fold name := by
  rw [fileStem_fieldIdent identifier]
  split
  next => rw [fold_underscore, fold_snakeCase]
  next => exact fold_snakeCase name

theorem fold_typeIdent (name : String) : fold (typeIdent name) = fold name := by
  rw [typeIdent]
  split
  next => rw [fold_underscore, fold_pascalCase]
  next => exact fold_pascalCase name

/-- The escapes make no names meet that fold apart, in fields and modules or in types. -/
theorem fold_eq_of_ident_eq {name other : String} (identifier : IsIdentifier name)
    (another : IsIdentifier other)
    (clash : fieldIdent name = fieldIdent other ∨ typeIdent name = typeIdent other) :
    fold name = fold other := by
  obtain field | type := clash
  · rw [← fold_fileStem identifier, field, fold_fileStem another]
  · rw [← fold_typeIdent name, type, fold_typeIdent]

/-- What the conversions make of an identifier, and which names they can take to one. -/
theorem fold_conversions {name : String} (identifier : IsIdentifier name) :
    (IsIdentifier (snakeCase name) ∧ (∀ c ∈ (snakeCase name).toList, c.isUpper = false) ∧
      snakeCase (snakeCase name) = snakeCase name ∧ fold (snakeCase name) = fold name) ∧
    (IsIdentifier (pascalCase name) ∧ IsPascal (pascalCase name).toList ∧
      pascalCase (pascalCase name) = pascalCase name ∧ fold (pascalCase name) = fold name) ∧
    ∀ other, snakeCase name = snakeCase other ∨ pascalCase name = pascalCase other →
      fold name = fold other := by
  have converted := (isIdentifier_pascalCase identifier).1
  have pascal := isPascal_pascalCase identifier
  refine ⟨⟨isIdentifier_snakeCase identifier, isUpper_of_mem_snakeCase,
    snakeCase_eq_self_iff.2 isUpper_of_mem_snakeCase, fold_snakeCase name⟩,
    ⟨converted, pascal, (pascalCase_eq_self_iff converted).2 pascal, fold_pascalCase name⟩, ?_⟩
  rintro other (same | same)
  · rw [← fold_snakeCase name, same, fold_snakeCase]
  · rw [← fold_pascalCase name, same, fold_pascalCase]

/-- An acronym between underscores, with another spelling of it that becomes the same type. -/
theorem fold_conversions_acronym :
    IsIdentifier "_HTTPServer2Go_" ∧
      pascalCase "_HTTPServer2Go_" = pascalCase "HTTP_server2Go" ∧
      snakeCase (snakeCase "_HTTPServer2Go_") = "_http_server2_go_" ∧
      pascalCase (pascalCase "_HTTPServer2Go_") = "HTTPServer2Go" ∧
      fold "_HTTPServer2Go_" = fold "HTTP_server2Go" := by
  have identifier : IsIdentifier "_HTTPServer2Go_" := isIdentifier_iff.1 rfl
  have same : pascalCase "_HTTPServer2Go_" = pascalCase "HTTP_server2Go" := by decide
  obtain ⟨⟨-, -, snake, -⟩, ⟨-, -, pascal, -⟩, apart⟩ := fold_conversions identifier
  exact ⟨identifier, same, snake.trans (by decide), pascal.trans (by decide), apart _ (.inr same)⟩

end WireSchema.Naming
