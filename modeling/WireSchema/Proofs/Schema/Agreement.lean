import WireSchema.Proofs.Json.Text
import WireSchema.Proofs.Schema.Loading

/-! Agreement of the two ways to load a description, from a text and from the value of a text. A
text is loaded from its start, and members without a meaning are only checked for their structure.
So a text that is loaded may go on after the document, and may have faults that a value cannot
have. -/

namespace WireSchema

open Json Outcome

namespace TypeBody

theorem needsStructure_loadKind : Load.NeedsStructure loadKind := by
  intro path draft kind made
  unfold loadKind at made
  split at made
  next => rfl
  next => rfl
  next => rfl
  next => exact absurd made (Load.failType_ne_ok _ _ _ _)

theorem skip_of_splitMembers {room : Draft.Room} {path : Path}
    {members : List (Except SyntaxError String × Draft)} {met : Option DefinedKind}
    {result : Option DefinedKind × List (String × Json)}
    (made : splitMembers room path members met = .ok result) :
    ∀ entry ∈ members, entry.2.skip = .ok () := by
  induction members generalizing met result with
  | nil => simp
  | cons entry members ih =>
    obtain ⟨key, draft⟩ := entry
    unfold splitMembers at made
    split at made
    next => simp_all
    next => cases made
    next key' draft' rest' same =>
      cases same
      split at made
      next isKind =>
        split at made
        next => cases made
        next =>
          split at made
          next => cases made
          next =>
            obtain ⟨found, loaded, tail⟩ := bind_eq_ok.1 made
            exact List.forall_mem_cons.2 ⟨needsStructure_loadKind _ _ _ loaded, ih tail⟩
      next =>
        obtain ⟨json, read, tail⟩ := bind_eq_ok.1 made
        obtain ⟨split, below, -⟩ := bind_eq_ok.1 tail
        exact List.forall_mem_cons.2 ⟨Load.needsStructure_anything room _ _ _ read, ih below⟩

theorem needsStructure_load (room : Draft.Room) : Load.NeedsStructure (load room) := by
  intro path draft body made
  obtain ⟨⟨kind, content⟩, loaded, -⟩ := bind_eq_ok.1 made
  cases draft with
  | object members stop =>
    obtain ⟨⟨found, rest⟩, split, tail⟩ := bind_eq_ok.1 loaded
    refine Draft.skip_object.2 ⟨skip_of_splitMembers split, ?_⟩
    cases stop with
    | none => rfl
    | some fault => cases tail
  | array items stop =>
    cases items with
    | nil => cases stop <;> cases loaded
    | cons first rest =>
      obtain ⟨found, kindMade, tail⟩ := bind_eq_ok.1 loaded
      obtain ⟨others, read, done⟩ := bind_eq_ok.1 tail
      refine Draft.skip_array.2 ⟨List.forall_mem_cons.2 ⟨needsStructure_loadKind _ _ _ kindMade,
        Load.skip_of_items (Load.needsStructure_anything room) read⟩, ?_⟩
      cases stop with
      | none => rfl
      | some fault => cases done
  | _ =>
    simp only [loadContent] at loaded
    exact absurd loaded (Load.failType_ne_ok _ _ _ _)

end TypeBody

theorem TypeDef.needsStructure_load (origin : Origin) (room : Draft.Room) :
    Load.NeedsStructure (load origin room) := by
  intro path draft type made
  obtain ⟨state, read, -⟩ := bind_eq_ok.1 made
  refine Form.needsStructure_read ?_ origin _ path draft state read
  refine List.forall_mem_cons.2 ⟨?name, List.forall_mem_singleton.2 ?type⟩
  case name =>
    intro state path draft state' made
    obtain ⟨text, textMade, -⟩ := bind_eq_ok.1 made
    exact Load.needsStructure_string _ _ _ textMade
  case type =>
    intro state path draft state' made
    obtain ⟨body, bodyMade, -⟩ := bind_eq_ok.1 made
    exact TypeBody.needsStructure_load room _ _ _ bodyMade

namespace Idl

theorem needsStructure_form (origin : Origin) (room : Draft.Room) :
    (form origin room).NeedsStructure := by
  refine List.forall_mem_cons.2
    ⟨?version, List.forall_mem_cons.2 ⟨?name, List.forall_mem_singleton.2 ?types⟩⟩
  case version =>
    intro state path draft state' made
    obtain ⟨text, textMade, -⟩ := bind_eq_ok.1 made
    exact Load.needsStructure_optionalString _ _ _ textMade
  case name =>
    intro state path draft state' made
    obtain ⟨text, textMade, -⟩ := bind_eq_ok.1 made
    exact Load.needsStructure_optionalString _ _ _ textMade
  case types =>
    intro state path draft state' made
    obtain ⟨types, listMade, -⟩ := bind_eq_ok.1 made
    exact Load.needsStructure_list (TypeDef.needsStructure_load origin room) _ _ _ listMade

theorem read_of_load {origin : Origin} {room : Draft.Room} {draft : Draft} {idl : Idl}
    (made : load origin room draft = .ok idl) :
    ∃ state, (form origin room).read origin [] draft ⟨none, none, none⟩ = .ok state := by
  unfold load at made
  split at made
  next state read => exact ⟨state, read⟩
  next => cases made

def StartsWith (text : String) (document : Json) : Prop :=
  (Scan.scan text).1.read Draft.textRoom [] = .ok document

theorem ofText_iff_ofJson_of_startsWith {text : String} {document : Json}
    (starts : StartsWith text document) (idl : Idl) :
    (ofText text = .ok idl → ofJson document.merge = .ok idl) ∧
      (document.hasDistinctKeys = true →
        (ofText text = .ok idl ↔ ofJson document.merge = .ok idl)) := by
  obtain ⟨draft, holds⟩ := Draft.read_eq_ok.1 starts
  have forth (made : ofText text = .ok idl) : ofJson document.merge = .ok idl := by
    rw [ofText, draft] at made
    exact @load_merge _ none _ _ document trivial idl made
  refine ⟨forth, fun distinct => ⟨forth, fun made => ?_⟩⟩
  have same := merge_eq_self document distinct
  rw [ofText, draft, ← same]
  rw [ofJson, same] at made
  have room : Draft.Holds (some 123) (document.depth - 4) := Nat.sub_le_sub_right holds 4
  exact load_merge room made

/-- What is loaded from a text is closed like a document. If it is a document, the same is loaded
from its value, and also the other way round, unless the document repeats a key. -/
theorem ofText_iff_ofJson (text : String) (idl : Idl) :
    (ofText text = .ok idl → (Scan.scan text).1.skip = .ok ()) ∧
    (∀ document, StartsWith text document →
      (ofText text = .ok idl → ofJson document.merge = .ok idl) ∧
      (document.hasDistinctKeys = true →
        (ofText text = .ok idl ↔ ofJson document.merge = .ok idl))) ∧
    ∀ json, Json.parse text = .ok json →
      ∃ document, StartsWith text document ∧ document.merge = json := by
  refine ⟨fun made => ?_, fun document starts => ofText_iff_ofJson_of_startsWith starts idl, ?_⟩
  · obtain ⟨state, read⟩ := read_of_load made
    exact Form.needsStructure_read (needsStructure_form _ _) .text _ [] _ state read
  · intro json parsed
    obtain ⟨document, starts, -, same⟩ := Json.parse_eq_ok.1 parsed
    exact ⟨document, starts, same⟩

theorem scan_trailing : Scan.scan "\x7b\"types\":[]\x7d x" =
    (.object [(.ok "types", .array [] none)] none, some [' ', 'x']) := by
  have chars : "\x7b\"types\":[]\x7d x".toList =
      ['{', '"', 't', 'y', 'p', 'e', 's', '"', ':', '[', ']', '}', ' ', 'x'] := rfl
  rw [Scan.scan, chars]
  rfl

theorem ofText_iff_ofJson_trailing :
    StartsWith "\x7b\"types\":[]\x7d x" (.object [("types", .array [])]) ∧
      ofText "\x7b\"types\":[]\x7d x" = .ok ⟨none, none, []⟩ := by
  have starts : StartsWith "\x7b\"types\":[]\x7d x" (.object [("types", .array [])]) := by
    rw [StartsWith, scan_trailing]
    rfl
  obtain ⟨-, agrees, -⟩ := ofText_iff_ofJson "\x7b\"types\":[]\x7d x" ⟨none, none, []⟩
  exact ⟨starts, ((agrees _ starts).2 rfl).2 rfl⟩

/-- A text that is loaded need not be a document. -/
theorem not_parse_of_ofText : ¬∀ text idl, ofText text = .ok idl ↔
    ∃ json, Json.parse text = .ok json ∧ ofJson json = .ok idl := by
  intro agree
  have loaded : ofText "\x7b\"types\":[]\x7d x" = .ok ⟨none, none, []⟩ := by
    rw [ofText, scan_trailing]
    rfl
  obtain ⟨json, parsed, -⟩ := (agree _ _).1 loaded
  rw [Json.parse, scan_trailing] at parsed
  cases parsed

end Idl

end WireSchema
