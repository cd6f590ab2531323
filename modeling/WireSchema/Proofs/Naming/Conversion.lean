import WireSchema.Proofs.Naming

/-! Shapes of converted names. Both conversions of an identifier are identifiers. Snake case leaves
no capitals, and Pascal case starts with one, or with an underscore where there is no letter. -/

namespace WireSchema

theorem IsWord.cases {c : Char} (word : IsWord c) :
    c.isUpper = true ∨ c.isLower = true ∨ c = '_' ∨ c.isDigit = true := by
  obtain (upper | lower | mark) | digit := word
  · exact .inl (decide_eq_true upper)
  · exact .inr (.inl (inRange_iff.2 lower))
  · exact .inr (.inr (.inl mark))
  · exact .inr (.inr (.inr (inRange_iff.2 digit)))

theorem isInitial_of_isUpper {c : Char} (upper : c.isUpper = true) : IsInitial c :=
  .inl (decide_eq_true_iff.1 upper)

theorem isWord_underscore : IsWord '_' := .inl (.inr (.inr rfl))

namespace Naming

/-! ## Letters -/

theorem isUpper_toLower (c : Char) : c.toLower.isUpper = false := by
  by_cases upper : c.isUpper = true
  · obtain ⟨lowest, -⟩ := bounds_of_isUpper upper
    have lowered := toNat_toLower upper
    refine Bool.eq_false_iff.2 fun still => ?_
    obtain ⟨-, highest⟩ := bounds_of_isUpper still
    omega
  · rw [toLower_eq_self (Bool.eq_false_iff.2 upper)]
    exact Bool.eq_false_iff.2 upper

theorem toNat_toUpper {c : Char} (lower : c.isLower = true) :
    c.toUpper.val.toNat + 32 = c.val.toNat := by
  obtain ⟨lowest, highest⟩ := bounds_of_isLower lower
  have shift : ('A'.val - 'a'.val).toNat = 4294967264 := by decide
  rw [show c.toUpper = ⟨_, _⟩ from dif_pos (inRange_iff.1 lower), UInt32.toNat_add, shift]
  omega

theorem isUpper_toUpper {c : Char} (lower : c.isLower = true) : c.toUpper.isUpper = true := by
  obtain ⟨lowest, highest⟩ := bounds_of_isLower lower
  have raised := toNat_toUpper lower
  refine decide_eq_true ⟨UInt32.le_iff_toNat_le.2 ?_, UInt32.le_iff_toNat_le.2 ?_⟩
  · show 65 ≤ c.toUpper.val.toNat
    omega
  · show c.toUpper.val.toNat ≤ 90
    omega

theorem toUpper_eq_self {c : Char} (other : c.isLower = false) : c.toUpper = c := by
  refine dif_neg fun range => ?_
  have lower : c.isLower = true := inRange_iff.2 range
  rw [other] at lower
  cases lower

/-! The classes of letters and digits lie apart. -/

theorem isLower_of_isUpper {c : Char} (upper : c.isUpper = true) : c.isLower = false := by
  have capital := bounds_of_isUpper upper
  refine Bool.eq_false_iff.2 fun lower => ?_
  have small := bounds_of_isLower lower
  omega

theorem isLower_of_isDigit {c : Char} (digit : c.isDigit = true) : c.isLower = false := by
  have number := bounds_of_isDigit digit
  refine Bool.eq_false_iff.2 fun lower => ?_
  have small := bounds_of_isLower lower
  omega

theorem isDigit_of_isUpper {c : Char} (upper : c.isUpper = true) : c.isDigit = false := by
  have capital := bounds_of_isUpper upper
  refine Bool.eq_false_iff.2 fun digit => ?_
  have number := bounds_of_isDigit digit
  omega

theorem toUpper_of_isUpper {c : Char} (upper : c.isUpper = true) : c.toUpper = c :=
  toUpper_eq_self (isLower_of_isUpper upper)

theorem toUpper_of_isDigit {c : Char} (digit : c.isDigit = true) : c.toUpper = c :=
  toUpper_eq_self (isLower_of_isDigit digit)

theorem toLower_toLower (c : Char) : c.toLower.toLower = c.toLower :=
  toLower_eq_self (isUpper_toLower c)

theorem toLower_toUpper (c : Char) : c.toUpper.toLower = c.toLower := by
  by_cases lower : c.isLower = true
  · have raised := toNat_toUpper lower
    have lowered := toNat_toLower (isUpper_toUpper lower)
    have plain : c.isUpper = false := by
      refine Bool.eq_false_iff.2 fun upper => ?_
      rw [isLower_of_isUpper upper] at lower
      cases lower
    rw [toLower_eq_self plain]
    exact Char.ext (UInt32.toNat_inj.1 (lowered.trans raised))
  · rw [toUpper_eq_self (Bool.eq_false_iff.2 lower)]

/-- Lower case makes no underscores. -/
theorem toLower_ne_underscore {c : Char} (letter : c ≠ '_') : c.toLower ≠ '_' := by
  by_cases upper : c.isUpper = true
  · obtain ⟨lowest, -⟩ := bounds_of_isUpper upper
    have lowered := toNat_toLower upper
    intro same
    have mark : c.toLower.val.toNat = 95 := congrArg (fun c : Char => c.val.toNat) same
    omega
  · rw [toLower_eq_self (Bool.eq_false_iff.2 upper)]
    exact letter

/-! ## Snake case -/

theorem isUpper_of_mem_snakeChars {previous : Option Char} {name : List Char} :
    ∀ c ∈ snakeChars previous name, c.isUpper = false := by
  induction name generalizing previous with
  | nil => exact fun _ member => by cases member
  | cons first rest ih =>
    rw [snakeChars]
    split
    next =>
      have lowered := isUpper_toLower first
      split
      next => exact List.forall_mem_cons.2 ⟨rfl, List.forall_mem_cons.2 ⟨lowered, ih⟩⟩
      next => exact List.forall_mem_cons.2 ⟨lowered, ih⟩
    next plain => exact List.forall_mem_cons.2 ⟨Bool.eq_false_iff.2 plain, ih⟩

theorem isUpper_of_mem_snakeCase {name : String} : ∀ c ∈ (snakeCase name).toList,
    c.isUpper = false := by
  rw [snakeCase, String.toList_ofList]
  exact isUpper_of_mem_snakeChars

/-- The first character never starts a word of its own. -/
theorem snakeChars_cons (first : Char) (rest : List Char) :
    snakeChars none (first :: rest) = first.toLower :: snakeChars (some first) rest := by
  rw [snakeChars]
  split
  next => rfl
  next plain => rw [toLower_eq_self (Bool.eq_false_iff.2 plain)]

theorem isIdentifier_snakeCase {name : String} (identifier : IsIdentifier name) :
    IsIdentifier (snakeCase name) := by
  obtain ⟨first, rest, same, initial, -⟩ := id identifier
  have word := isWord_snakeCase identifier
  have start : (snakeCase name).toList = first.toLower :: snakeChars (some first) rest := by
    rw [snakeCase, String.toList_ofList, same, snakeChars_cons]
  rw [start] at word
  refine ⟨_, _, start, ?_, (List.forall_mem_cons.1 word).2⟩
  by_cases upper : first.isUpper = true
  · exact isInitial_toLower upper
  · rw [toLower_eq_self (Bool.eq_false_iff.2 upper)]
    exact initial

/-- Snake case written from left to right, with no underscore where one was just written. -/
def writeSnake (written : List Char) : Option Char → List Char → List Char
  | _, [] => written
  | previous, c :: rest =>
    if c.isUpper then
      if startsWord previous rest.head? && written.getLast? != some '_' then
        writeSnake (written ++ ['_', c.toLower]) (some c) rest
      else
        writeSnake (written ++ [c.toLower]) (some c) rest
    else
      writeSnake (written ++ [c]) (some c) rest

/-- Behind an underscore no word starts, so what was written last decides nothing. -/
theorem startsWord_written {written : List Char} {previous next : Option Char}
    (last : written.getLast? = previous.map Char.toLower) :
    (startsWord previous next && written.getLast? != some '_') = startsWord previous next := by
  cases previous with
  | none => rfl
  | some p =>
    by_cases mark : p = '_'
    · rw [mark]
      rfl
    · have other : written.getLast? ≠ some '_' := by
        rw [last]
        exact fun same => toLower_ne_underscore mark (Option.some.inj same)
      rw [bne_iff_ne.2 other, Bool.and_true]

/-- The character written last is the previous one in lower case, at every step. -/
theorem writeSnake_eq {written : List Char} {previous : Option Char} {name : List Char}
    (last : written.getLast? = previous.map Char.toLower) :
    writeSnake written previous name = written ++ snakeChars previous name := by
  induction name generalizing written previous with
  | nil => exact (List.append_nil written).symm
  | cons first rest ih =>
    rw [writeSnake, snakeChars, startsWord_written last]
    split
    next =>
      split
      next =>
        rw [ih (by simp), List.append_assoc]
        rfl
      next =>
        rw [ih (by simp), List.append_assoc]
        rfl
    next plain =>
      rw [ih (by simp [toLower_eq_self (Bool.eq_false_iff.2 plain)]), List.append_assoc]
      rfl

theorem snakeCase_eq_written (name : String) :
    snakeCase name = String.ofList (writeSnake [] none name.toList) := by
  rw [snakeCase, writeSnake_eq rfl, List.nil_append]

/-! ## Pascal case -/

/-- A split text has lost its marks and nothing else. -/
theorem flatten_splitOn (text : List Char) (mark : Char) :
    (text.splitOn mark).flatten = text.filter (· != mark) := by
  induction text with
  | nil => rfl
  | cons first rest ih =>
    rw [List.splitOn_cons_eq_if_modifyHead, List.filter_cons, ← ih]
    by_cases same : first = mark
    · rw [if_pos (beq_iff_eq.2 same), if_neg (by simpa using same)]
      rfl
    · obtain ⟨word, words, split⟩ := List.exists_cons_of_ne_nil (List.splitOn_ne_nil mark rest)
      rw [if_neg (mt beq_iff_eq.1 same), if_pos (by simpa using same), split]
      rfl

/-- The words of a name hold all of its characters but the marks between them. -/
theorem exists_mem_splitOn {text : List Char} {mark c : Char} :
    (∃ word ∈ text.splitOn mark, c ∈ word) ↔ c ∈ text ∧ c ≠ mark := by
  rw [← List.mem_flatten, flatten_splitOn, List.mem_filter, bne_iff_ne]

theorem isWord_of_mem_splitOn {name word : List Char} (all : ∀ c ∈ name, IsWord c)
    (member : word ∈ name.splitOn '_') : ∀ c ∈ word, IsWord c ∧ c ≠ '_' := fun c inside =>
  have ⟨within, letter⟩ := exists_mem_splitOn.1 ⟨word, member, inside⟩
  ⟨all c within, letter⟩

/-- The first letter of a word becomes a capital, and digits stay. -/
theorem isUpper_or_isDigit_toUpper {c : Char} (word : IsWord c) (letter : c ≠ '_') :
    c.toUpper.isUpper = true ∨ c.isDigit = true ∧ c.toUpper = c := by
  obtain upper | lower | mark | digit := word.cases
  · refine .inl ?_
    rw [toUpper_of_isUpper upper]
    exact upper
  · exact .inl (isUpper_toUpper lower)
  · exact absurd mark letter
  · exact .inr ⟨digit, toUpper_of_isDigit digit⟩

theorem ne_underscore_of_isUpper {c : Char} (upper : c.isUpper = true) : c ≠ '_' := by
  rintro rfl
  cases upper

theorem isWord_of_mem_capitalize {word : List Char} (all : ∀ c ∈ word, IsWord c ∧ c ≠ '_') :
    ∀ c ∈ capitalize word, IsWord c ∧ c ≠ '_' := by
  cases word with
  | nil => exact fun _ member => by cases member
  | cons first rest =>
    obtain ⟨⟨here, letter⟩, below⟩ := List.forall_mem_cons.1 all
    refine List.forall_mem_cons.2 ⟨?_, below⟩
    obtain upper | ⟨-, same⟩ := isUpper_or_isDigit_toUpper here letter
    · exact ⟨.inl (isInitial_of_isUpper upper), ne_underscore_of_isUpper upper⟩
    · rw [same]
      exact ⟨here, letter⟩

theorem isWord_of_mem_words {name : List Char} (all : ∀ c ∈ name, IsWord c) :
    ∀ c ∈ (name.splitOn '_').flatMap capitalize, IsWord c ∧ c ≠ '_' := by
  intro c member
  obtain ⟨word, among, inside⟩ := List.mem_flatMap.1 member
  exact isWord_of_mem_capitalize (isWord_of_mem_splitOn all among) c inside

theorem isWord_of_mem_pascalChars {name : List Char} (all : ∀ c ∈ name, IsWord c) :
    ∀ c ∈ pascalChars name, IsWord c := by
  have joined := fun c member => (isWord_of_mem_words all c member).1
  rw [pascalChars]
  cases words : (name.splitOn '_').flatMap capitalize with
  | nil => exact List.forall_mem_singleton.2 isWord_underscore
  | cons first rest =>
    rw [words] at joined
    rw [guardStart]
    split
    next => exact List.forall_mem_cons.2 ⟨isWord_underscore, joined⟩
    next => exact joined

/-- Only of underscores no word is left. -/
theorem words_eq_nil {name : List Char} :
    (name.splitOn '_').flatMap capitalize = [] ↔ ∀ c ∈ name, c = '_' := by
  have none (word : List Char) : capitalize word = [] ↔ word = [] := by cases word <;> simp [capitalize]
  simp only [List.flatMap_eq_nil_iff, none]
  constructor
  · intro empty c member
    by_contra letter
    obtain ⟨word, among, inside⟩ := exists_mem_splitOn.2 ⟨member, letter⟩
    rw [empty word among] at inside
    cases inside
  · intro marks word among
    refine List.eq_nil_iff_forall_not_mem.2 fun c inside => ?_
    obtain ⟨within, letter⟩ := exists_mem_splitOn.1 ⟨word, among, inside⟩
    exact letter (marks c within)

theorem pascalChars_eq_underscore {name : List Char} (all : ∀ c ∈ name, IsWord c) :
    pascalChars name = ['_'] ↔ ∀ c ∈ name, c = '_' := by
  have joined := isWord_of_mem_words all
  rw [← words_eq_nil, pascalChars]
  cases words : (name.splitOn '_').flatMap capitalize with
  | nil => exact iff_of_true rfl rfl
  | cons first rest =>
    rw [words] at joined
    refine iff_of_false (fun same => ?_) (List.cons_ne_nil _ _)
    rw [guardStart] at same
    split at same
    next => exact List.cons_ne_nil _ _ (List.cons.inj same).2
    next => exact (joined first List.mem_cons_self).2 (List.cons.inj same).1

/-- A name in Pascal case starts with a capital, or with an underscore before a digit or alone. -/
theorem exists_start_pascalChars {name : List Char} (all : ∀ c ∈ name, IsWord c) :
    ∃ first rest, pascalChars name = first :: rest ∧
      (first.isUpper = true ∨ first = '_' ∧ ∀ c ∈ rest.head?, c.isDigit = true) := by
  rw [pascalChars]
  cases words : (name.splitOn '_').flatMap capitalize with
  | nil => exact ⟨'_', [], rfl, .inr ⟨rfl, nofun⟩⟩
  | cons first rest =>
    rw [guardStart]
    split
    next digit =>
      refine ⟨'_', first :: rest, rfl, .inr ⟨rfl, fun c head => ?_⟩⟩
      obtain rfl := Option.some.inj head
      exact digit
    next other =>
      refine ⟨first, rest, rfl, .inl ?_⟩
      have head := congrArg List.head? words
      rw [List.head?_flatMap] at head
      obtain ⟨word, among, starts⟩ := List.exists_of_findSome?_eq_some head
      have inside := isWord_of_mem_splitOn all among
      cases word with
      | nil => cases starts
      | cons c others =>
        obtain rfl := Option.some.inj starts
        obtain ⟨here, letter⟩ := inside c List.mem_cons_self
        obtain upper | ⟨digit, same⟩ := isUpper_or_isDigit_toUpper here letter
        · exact upper
        · rw [same] at other
          exact absurd digit other

/-- A name without capitals in Pascal case has no word that starts with a letter. -/
theorem isDigit_of_caseless {name : List Char} (all : ∀ c ∈ name, IsWord c)
    (caseless : ∀ c ∈ pascalChars name, c.isUpper = false) :
    ∀ word ∈ name.splitOn '_', ∀ c ∈ word.head?, c.isDigit = true := by
  have kept (words : List Char) : ∀ c ∈ words, c ∈ guardStart words := by
    intro c member
    unfold guardStart
    split
    next => cases member
    next => split <;> first | exact member | exact List.mem_cons_of_mem _ member
  intro word among c first
  obtain ⟨rest, rfl⟩ := List.head?_eq_some_iff.1 first
  obtain ⟨here, letter⟩ := isWord_of_mem_splitOn all among c List.mem_cons_self
  have raised : c.toUpper ∈ pascalChars name :=
    kept _ _ (List.mem_flatMap.2 ⟨_, among, List.mem_cons_self⟩)
  obtain upper | ⟨digit, -⟩ := isUpper_or_isDigit_toUpper here letter
  · rw [caseless _ raised] at upper
    cases upper
  · exact digit

/-! ## Identifiers -/

/-- An escape adds nothing but its marks. -/
theorem forall_mem_escapeKeyword {name : String} {P : Char → Prop} (all : ∀ c ∈ name.toList, P c)
    (line : P '_') (letter : P 'r') (hash : P '#') : ∀ c ∈ (escapeKeyword name).toList, P c := by
  rw [escapeKeyword]
  split
  next =>
    rw [String.toList_append]
    exact List.forall_mem_append.2 ⟨all, List.forall_mem_singleton.2 line⟩
  next =>
    split
    next =>
      rw [String.toList_append]
      exact List.forall_mem_append.2
        ⟨List.forall_mem_cons.2 ⟨letter, List.forall_mem_singleton.2 hash⟩, all⟩
    next => exact all

theorem isUpper_of_mem_fieldIdent {name : String} : ∀ c ∈ (fieldIdent name).toList,
    c.isUpper = false :=
  forall_mem_escapeKeyword isUpper_of_mem_snakeCase rfl rfl rfl

theorem isWord_of_mem_fieldIdent {name : String} (identifier : IsIdentifier name) :
    ∀ c ∈ (fieldIdent name).toList, IsWord c ∨ c = '#' :=
  forall_mem_escapeKeyword (fun c member => .inl (isWord_snakeCase identifier c member))
    (.inl isWord_underscore) (.inl (.inl (.inr (.inl (by decide))))) (.inr rfl)

theorem isWord_of_mem_pascalCase {name : String} (identifier : IsIdentifier name) :
    ∀ c ∈ (pascalCase name).toList, IsWord c := by
  rw [pascalCase, String.toList_ofList]
  exact isWord_of_mem_pascalChars fun _ => identifier.isWord

theorem isWord_of_mem_typeIdent {name : String} (identifier : IsIdentifier name) :
    ∀ c ∈ (typeIdent name).toList, IsWord c := by
  have word := isWord_of_mem_pascalCase identifier
  rw [typeIdent]
  split
  next =>
    rw [String.toList_append]
    exact List.forall_mem_append.2 ⟨word, List.forall_mem_singleton.2 isWord_underscore⟩
  next => exact word

end Naming

end WireSchema
