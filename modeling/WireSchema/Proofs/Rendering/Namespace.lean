import WireSchema.Proofs.Naming.Conversion
import WireSchema.Proofs.Rendering.Identifiers

/-! Names that an index introduces: those of its modules and of the items that it exports. Modules
are told apart from modules, and items from items. A module has the name of an item only where
the item is a struct without a letter at the start of any of its words. -/

namespace WireSchema

namespace Source

def listedNames (line : List Char) : List (List Char) :=
  ((((line.dropWhile (· ≠ '{')).drop 1).takeWhile (· ≠ '}')).filter (· ≠ ' ')).splitOn ','

/-- The names that a line brings into its namespace: a declared module, or imported items. -/
def introducedNames (line : List Char) : List (List Char) :=
  if "pub mod ".toList.isPrefixOf line then [(line.drop 8).takeWhile (· ≠ ';')]
  else if "pub use ".toList.isPrefixOf line then listedNames line
  else []

def introduced (source : Source) : List String :=
  source.flatMap fun step => (introducedNames step.text.toList).map String.ofList

theorem introduced_cons (step : Step) (rest : Source) :
    introduced (step :: rest) =
      (introducedNames step.text.toList).map String.ofList ++ introduced rest :=
  List.flatMap_cons

theorem introduced_append (first second : Source) :
    introduced (first ++ second) = introduced first ++ introduced second :=
  List.flatMap_append

theorem introduced_map {types : List TypeDef} (line : TypeDef → Step)
    (names : TypeDef → List String) (each : ∀ type ∈ types,
      (introducedNames (line type).text.toList).map String.ofList = names type) :
    introduced (types.map line) = types.flatMap names := by
  induction types with
  | nil => rfl
  | cons type rest ih =>
    obtain ⟨here, below⟩ := List.forall_mem_cons.1 each
    rw [List.map_cons, introduced_cons, here, ih below, List.flatMap_cons]

/-- Empty lines introduce nothing. -/
theorem introduced_spaced (parts : List Source) :
    introduced (spaced parts) = parts.flatMap introduced := by
  induction parts with
  | nil => rfl
  | cons part rest ih =>
    cases rest with
    | nil => simp [spaced]
    | cons next others =>
      have split : spaced (part :: next :: others) = part ++ .blank :: spaced (next :: others) := by
        simp [spaced]
      rw [split, introduced_append, introduced_cons, ih, List.flatMap_cons]
      rfl

/-! ## Lists of names -/

theorem forall_mem_intercalate {P : Char → Prop} {mark : String} {items : List String}
    (apart : ∀ c ∈ mark.toList, P c) (each : ∀ item ∈ items, ∀ c ∈ item.toList, P c) :
    ∀ c ∈ (mark.intercalate items).toList, P c := by
  induction items with
  | nil => exact fun _ member => by cases member
  | cons item rest ih =>
    obtain ⟨here, below⟩ := List.forall_mem_cons.1 each
    cases rest with
    | nil =>
      rw [String.intercalate_singleton]
      exact here
    | cons next others =>
      rw [String.intercalate_cons_cons, String.toList_append, String.toList_append]
      exact List.forall_mem_append.2 ⟨List.forall_mem_append.2 ⟨here, apart⟩, ih below⟩

theorem filter_intercalate {items : List String} (solid : ∀ item ∈ items, ' ' ∉ item.toList) :
    (", ".intercalate items).toList.filter (· ≠ ' ') = [','].intercalate (items.map String.toList) := by
  have kept (item : String) (free : ' ' ∉ item.toList) :
      item.toList.filter (· ≠ ' ') = item.toList :=
    List.filter_eq_self.2 fun c member => decide_eq_true fun blank => free (blank ▸ member)
  induction items with
  | nil => rfl
  | cons item rest ih =>
    obtain ⟨here, below⟩ := List.forall_mem_cons.1 solid
    cases rest with
    | nil => rw [String.intercalate_singleton, kept item here, List.map_singleton,
        List.intercalate_singleton]
    | cons next others =>
      rw [String.intercalate_cons_cons, String.toList_append, String.toList_append,
        List.filter_append, List.filter_append, kept item here, ih below]
      simp only [List.map_cons, List.intercalate_cons_cons]
      rfl

theorem listedNames_eq {before : List Char} {items : List String} {after : List Char}
    (outside : '{' ∉ before) (words : ∀ item ∈ items, ∀ c ∈ item.toList, IsWord c)
    (filled : items ≠ []) :
    listedNames (before ++ '{' :: ((", ".intercalate items).toList ++ '}' :: after)) =
      items.map String.toList := by
  have unlike {mark c : Char} (other : ¬IsWord mark) (word : IsWord c) : c ≠ mark := by
    rintro rfl
    exact other word
  have brace : ∀ c ∈ (", ".intercalate items).toList, c ≠ '}' :=
    forall_mem_intercalate (by simp) fun item member c inside =>
      unlike (by decide) (words item member c inside)
  have solid : ∀ item ∈ items, ' ' ∉ item.toList := fun item member inside =>
    absurd (words item member ' ' inside) (by decide)
  have joined : ∀ word ∈ items.map String.toList, ',' ∉ word := by
    intro word member inside
    obtain ⟨item, among, rfl⟩ := List.mem_map.1 member
    exact absurd (words item among ',' inside) (by decide)
  rw [listedNames, List.dropWhile_append_of_pos, List.dropWhile_cons_of_neg, List.drop_one,
    List.tail_cons, List.takeWhile_append_of_pos, List.takeWhile_cons_of_neg, List.append_nil,
    filter_intercalate solid, List.splitOn_intercalate ',' joined]
  · exact List.map_eq_nil_iff.not.2 filled
  · decide
  · exact fun c member => decide_eq_true (brace c member)
  · decide
  · exact fun c member => decide_eq_true fun same => outside (same ▸ member)

theorem introduced_declaration {ident : String} (plain : ';' ∉ ident.toList) :
    (introducedNames (Module.declaration ident).toList).map String.ofList = [ident] := by
  have text : (Module.declaration ident).toList = "pub mod ".toList ++ (ident.toList ++ [';']) := by
    rw [Module.declaration, String.toList_append, String.toList_append, List.append_assoc]
    rfl
  have name : introducedNames ("pub mod ".toList ++ (ident.toList ++ [';'])) =
      [(ident.toList ++ [';']).takeWhile (· ≠ ';')] := rfl
  rw [text, name, List.takeWhile_append_of_pos]
  · simp
  · exact fun c member => decide_eq_true fun same => plain (same ▸ member)

end Source

/-! ## Lines of an index -/

theorem TypeDef.exportedItems_ne_nil (type : TypeDef) : type.exportedItems ≠ [] := by
  unfold exportedItems
  split <;> exact List.cons_ne_nil _ _

theorem TypeDef.typeIdent_mem_exportedItems {type : TypeDef} (struct : type.body.kind = .struct) :
    Naming.typeIdent type.name ∈ type.exportedItems := by
  obtain ⟨name, body⟩ := type
  cases body with
  | struct fields => exact List.mem_cons_self
  | enum variants => cases struct

namespace Catalog

open Source

theorem introduced_exportLine {type : TypeDef} (identifier : IsIdentifier type.name) :
    (introducedNames (exportLine type).text.toList).map String.ofList = type.exportedItems := by
  have text : (exportLine type).text.toList = ("pub use ".toList ++ type.moduleIdent.toList ++
      [':', ':']) ++ '{' :: ((", ".intercalate type.exportedItems).toList ++ '}' :: [';']) := by
    simp only [exportLine, Step.text, String.toList_append, List.append_assoc]
    rfl
  have start (rest : List Char) : introducedNames ("pub use ".toList ++ rest) =
      listedNames ("pub use ".toList ++ rest) := rfl
  have outside : '{' ∉ "pub use ".toList ++ type.moduleIdent.toList ++ [':', ':'] := by
    simp only [List.mem_append, not_or]
    refine ⟨⟨by decide, fun inside => ?_⟩, by decide⟩
    obtain word | mark := Naming.isWord_of_mem_fieldIdent identifier _ inside
    · exact absurd word (by decide)
    · cases mark
  have listed := @listedNames_eq _ _ [';'] outside
    (TypeDef.isWord_of_mem_exportedItems identifier) type.exportedItems_ne_nil
  simp only [List.append_assoc] at text listed
  rw [text, start, listed, List.map_map]
  exact (List.map_congr_left fun item _ => String.ofList_toList).trans (List.map_id _)

theorem introduced_registryLines (types : List TypeDef) (registryPath : String) :
    introduced (registryLines types registryPath) = [] := by
  have entries : introduced (types.map registryLine) = [] := by
    rw [introduced_map _ fun _ => []]
    · simp
    · intro type _
      simp only [registryLine, Step.text, toString, String.toList_append, List.append_assoc]
      rfl
  have opening : introduced [.line (s!"static REGISTRY: std::sync::LazyLock<{registryPath}> = " ++
      "std::sync::LazyLock::new(|| \x7b")] = [] := by
    simp only [introduced, List.flatMap_singleton, Step.text, String.toList_append,
      List.append_assoc]
    rfl
  have empty : introduced [.line s!"    {registryPath}::default()"] = [] := by
    simp only [introduced, List.flatMap_singleton, Step.text, String.toList_append,
      List.append_assoc]
    rfl
  rw [registryLines, introduced_append, introduced_append, opening]
  split
  next => rw [empty]; rfl
  next => rw [introduced_append, introduced_append, entries]; rfl

theorem introduced_access (registryPath : String) :
    introduced (Source.block s!"pub fn registry() -> &'static {registryPath}"
      [.line "&REGISTRY"]) = [] := by
  have header (rest : List Char) :
      introducedNames ("pub fn registry() -> &'static ".toList ++ rest) = [] := rfl
  rw [Source.block, Source.enclosed, List.cons_append, introduced_cons]
  simp only [Step.text, toString, String.toList_append, List.append_assoc, header]
  rfl

theorem introduced_renderIndex {catalog : Catalog}
    (identifiers : ∀ type ∈ catalog.table.types, IsIdentifier type.name) (options : RenderOptions) :
    introduced (catalog.renderIndex options) = catalog.table.types.map TypeDef.moduleIdent ++
      catalog.table.types.flatMap TypeDef.exportedItems := by
  have modules : introduced (catalog.table.types.map fun type =>
      .line (Module.declaration type.moduleIdent)) =
        catalog.table.types.map TypeDef.moduleIdent := by
    rw [introduced_map _ fun type => [type.moduleIdent], ← List.map_eq_flatMap]
    intro type member
    rw [Step.text, introduced_declaration]
    intro inside
    obtain word | mark := Naming.isWord_of_mem_fieldIdent (identifiers type member) _ inside
    · exact absurd word (by decide)
    · cases mark
  have exports : introduced (catalog.table.types.map exportLine) =
      catalog.table.types.flatMap TypeDef.exportedItems :=
    introduced_map exportLine TypeDef.exportedItems fun type member =>
      introduced_exportLine (identifiers type member)
  have header : introduced [.line "//! Types generated from the IDL. Do not edit by hand."] = [] :=
    rfl
  have note : introducedNames
      "/// Layouts of every generated type, for resolving references at encode/parse time.".toList =
        [] := rfl
  simp only [renderIndex, introduced_spaced, List.flatMap_cons, List.flatMap_nil, header, modules,
    exports, introduced_registryLines, introduced_cons, introduced_access, Step.text, note,
    List.map_nil, List.nil_append, List.append_nil]

end Catalog

/-! ## Clashes -/

theorem not_caseless_append {stem suffix : String} (capital : suffix.toList.any Char.isUpper = true) :
    ¬∀ c ∈ (stem ++ suffix).toList, c.isUpper = false := by
  intro caseless
  obtain ⟨c, member, upper⟩ := List.any_eq_true.1 capital
  rw [String.toList_append] at caseless
  rw [caseless c (List.mem_append_right _ member)] at upper
  cases upper

namespace Naming

/-- All names that are taken have capitals. -/
theorem typeIdent_of_caseless {name : String}
    (caseless : ∀ c ∈ (pascalCase name).toList, c.isUpper = false) :
    typeIdent name = pascalCase name := by
  have capitals : ∀ word ∈ takenTypeNames, word.toList.any Char.isUpper = true := by decide
  refine if_neg fun taken => ?_
  obtain ⟨c, member, upper⟩ := List.any_eq_true.1 (capitals _ (List.contains_iff_mem.1 taken))
  rw [caseless c member] at upper
  cases upper

/-- Whether every word of a name starts with a digit. -/
def LacksInitials (name : String) : Prop :=
  ∀ word ∈ name.toList.splitOn '_', ∀ c ∈ word.head?, c.isDigit = true

theorem lacksInitials_of_caseless {name : String} (identifier : IsIdentifier name)
    (caseless : ∀ c ∈ (pascalCase name).toList, c.isUpper = false) : LacksInitials name := by
  rw [pascalCase, String.toList_ofList] at caseless
  exact isDigit_of_caseless (fun _ => identifier.isWord) caseless

end Naming

/-- An item without capitals is a struct under its name in Pascal case. -/
theorem TypeDef.eq_pascalCase_of_caseless {type : TypeDef} {item : String}
    (member : item ∈ type.exportedItems) (caseless : ∀ c ∈ item.toList, c.isUpper = false) :
    type.body.kind = .struct ∧ item = Naming.pascalCase type.name := by
  obtain ⟨name, body⟩ := type
  cases body with
  | struct fields =>
    refine ⟨rfl, ?_⟩
    simp only [exportedItems, List.mem_cons, List.not_mem_nil, or_false] at member
    obtain rfl | rfl | rfl := member
    · refine Naming.typeIdent_of_caseless fun c inside => caseless c ?_
      rw [Naming.typeIdent]
      split
      next =>
        rw [String.toList_append]
        exact List.mem_append_left _ inside
      next => exact inside
    · exact absurd caseless (not_caseless_append (by decide))
    · exact absurd caseless (not_caseless_append (by decide))
  | enum variants =>
    simp only [exportedItems, List.mem_cons, List.not_mem_nil, or_false] at member
    obtain rfl | rfl := member
    · exact absurd caseless (not_caseless_append (by decide))
    · exact absurd caseless (not_caseless_append (by decide))

namespace Catalog

variable {idl : Idl} {catalog : Catalog}

/-- What an index introduces are its modules and items, and they are distinct if and only if none
of the structs without initials is called what a module is. -/
theorem nodup_introduced_iff (accepted : ofIdl idl = .ok catalog) (options : RenderOptions) :
    Source.introduced (catalog.renderIndex options) =
        idl.types.map TypeDef.moduleIdent ++ idl.types.flatMap TypeDef.exportedItems ∧
      ((Source.introduced (catalog.renderIndex options)).Nodup ↔
        ∀ type ∈ idl.types, type.body.kind = .struct → Naming.LacksInitials type.name →
          ∀ other ∈ idl.types, other.moduleIdent ≠ Naming.pascalCase type.name) := by
  obtain ⟨stems, items⟩ := distinct_of_ofIdl accepted
  have types : catalog.table.types = idl.types := by rw [(ofIdl_eq_ok accepted).1]
  have identifiers : ∀ type ∈ idl.types, IsIdentifier type.name :=
    fun _ => isIdentifier_of_ofIdl accepted
  have introduced := introduced_renderIndex (types ▸ identifiers) options
  have modules : (idl.types.map TypeDef.moduleIdent).Nodup :=
    List.Nodup.of_map Naming.fileStem (by rwa [List.map_map])
  rw [types] at introduced
  refine ⟨introduced, ?_⟩
  rw [introduced, List.nodup_append]
  constructor
  · rintro ⟨-, -, apart⟩ type member struct - other among same
    have caseless := @Naming.isUpper_of_mem_fieldIdent other.name
    have exported := List.mem_flatMap.2 ⟨type, member, TypeDef.typeIdent_mem_exportedItems struct⟩
    refine apart _ (List.mem_map_of_mem among) _ exported ?_
    rw [same, Naming.typeIdent_of_caseless (same ▸ caseless)]
  · intro apart
    refine ⟨modules, items, ?_⟩
    rintro ident declared item exported rfl
    obtain ⟨other, among, rfl⟩ := List.mem_map.1 declared
    obtain ⟨type, member, inside⟩ := List.mem_flatMap.1 exported
    have caseless := @Naming.isUpper_of_mem_fieldIdent other.name
    obtain ⟨struct, same⟩ := TypeDef.eq_pascalCase_of_caseless inside caseless
    exact apart type member struct
      (Naming.lacksInitials_of_caseless (identifiers type member) (same ▸ caseless)) other among same

theorem nodup_introduced_chain : ofIdl chain = .ok catalogOfChain ∧
    (Source.introduced (catalogOfChain.renderIndex .standard)).Nodup := by
  have accepted : ofIdl chain = .ok catalogOfChain := rfl
  refine ⟨accepted, (nodup_introduced_iff accepted .standard).2.2 fun type member => ?_⟩
  have initials : ∀ type ∈ chain.types, (type.name.toList.splitOn '_').any
      (fun word => word.head?.any fun c => !c.isDigit) = true := by decide
  intro _ digits
  obtain ⟨word, among, letter⟩ := List.any_eq_true.1 (initials type member)
  obtain ⟨c, first, other⟩ := (Option.any_eq_true _ _).1 letter
  rw [digits word among c first] at other
  cases other

def numbered : Idl :=
  ⟨none, none, [⟨"_1", .struct [⟨"level", .primitive .bool⟩]⟩]⟩

theorem not_nodup_introduced_numbered : ¬∀ idl catalog, ofIdl idl = .ok catalog →
    ∀ options, (Source.introduced (catalog.renderIndex options)).Nodup := by
  intro all
  have accepted : ofIdl numbered =
      .ok ⟨⟨numbered.types⟩, numbered.types.map TypeDef.layout⟩ := rfl
  have distinct := all _ _ accepted .standard
  rw [introduced_renderIndex fun type => isIdentifier_of_ofIdl accepted] at distinct
  exact absurd distinct (by decide)

end Catalog

end WireSchema
