import WireSchema.Proofs.Json.Injective
import WireSchema.Proofs.Layout.Builder

/-! Text forms of layouts. The builder expression and the JSON of a layout each tell which layout
they were written for. -/

namespace WireSchema.Layout

/-! ## JSON -/

mutual

theorem isIntegral_toJson : (layout : Layout) → layout.toJson.IsIntegral
  | .primitive _ => trivial
  | .defined _ => ⟨trivial, trivial⟩
  | .vec item | .option item => ⟨isIntegral_toJson item, trivial⟩
  | .array item _ => ⟨⟨isIntegral_toJson item, trivial, trivial⟩, trivial⟩
  | .hashMap key value => ⟨⟨isIntegral_toJson key, isIntegral_toJson value, trivial⟩, trivial⟩
  | .struct parts | .enum parts => ⟨membersAreIntegral_toJsonEntries parts, trivial⟩
termination_by structural layout => layout

theorem membersAreIntegral_toJsonEntries : (entries : List (String × Layout)) →
    Json.MembersAreIntegral (toJsonEntries entries)
  | [] => trivial
  | (_, layout) :: rest => ⟨isIntegral_toJson layout, membersAreIntegral_toJsonEntries rest⟩
termination_by structural entries => entries

end

theorem name_inj {p q : Primitive} (same : p.name = q.name) : p = q := by
  have named := Primitive.ofName?_name p
  rw [same, Primitive.ofName?_name] at named
  exact (Option.some.inj named).symm

mutual

theorem toJson_inj : (a b : Layout) → a.toJson = b.toJson → a = b
  | .primitive p, b, same => by
    cases b with
    | primitive q => exact congrArg Layout.primitive (name_inj (Json.string.inj same))
    | _ => simp [toJson] at same
  | .vec item, b, same => by
    cases b with
    | vec item' =>
      simp only [toJson, Json.object.injEq, List.cons.injEq, Prod.mk.injEq, true_and, and_true] at same
      rw [toJson_inj item item' same]
    | _ => simp [toJson] at same
  | .array item length, b, same => by
    cases b with
    | array item' length' =>
      simp only [toJson, Json.nat, Json.object.injEq, Json.array.injEq, Json.number.injEq,
        Number.int.injEq, Int.ofNat_inj, List.cons.injEq, Prod.mk.injEq, true_and, and_true] at same
      rw [toJson_inj item item' same.1, same.2]
    | _ => simp [toJson] at same
  | .option item, b, same => by
    cases b with
    | option item' =>
      simp only [toJson, Json.object.injEq, List.cons.injEq, Prod.mk.injEq, true_and, and_true] at same
      rw [toJson_inj item item' same]
    | _ => simp [toJson] at same
  | .hashMap key value, b, same => by
    cases b with
    | hashMap key' value' =>
      simp only [toJson, Json.object.injEq, Json.array.injEq, List.cons.injEq, Prod.mk.injEq,
        true_and, and_true] at same
      rw [toJson_inj key key' same.1, toJson_inj value value' same.2]
    | _ => simp [toJson] at same
  | .struct fields, b, same => by
    cases b with
    | struct fields' =>
      simp only [toJson, Json.object.injEq, List.cons.injEq, Prod.mk.injEq, true_and, and_true] at same
      rw [toJsonEntries_inj fields fields' same]
    | _ => simp [toJson] at same
  | .enum variants, b, same => by
    cases b with
    | enum variants' =>
      simp only [toJson, Json.object.injEq, List.cons.injEq, Prod.mk.injEq, true_and, and_true] at same
      rw [toJsonEntries_inj variants variants' same]
    | _ => simp [toJson] at same
  | .defined name, b, same => by
    cases b with
    | defined name' =>
      simp only [toJson, Json.object.injEq, Json.string.injEq, List.cons.injEq, Prod.mk.injEq,
        true_and, and_true] at same
      rw [same]
    | _ => simp [toJson] at same
termination_by structural a => a

theorem toJsonEntries_inj : (entries entries' : List (String × Layout)) →
    toJsonEntries entries = toJsonEntries entries' → entries = entries'
  | [], [], _ => rfl
  | [], (_, _) :: _, same | (_, _) :: _, [], same => nomatch same
  | (key, layout) :: rest, (key', layout') :: rest', same => by
    simp only [toJsonEntries, List.cons.injEq, Prod.mk.injEq] at same
    rw [same.1.1, toJson_inj layout layout' same.1.2, toJsonEntries_inj rest rest' same.2]
termination_by structural entries => entries

end

theorem eq_of_render_toJson {spacing : Json.Spacing} (blank : spacing.IsBlank) {a b : Layout}
    (same : Json.render spacing a.toJson 0 = Json.render spacing b.toJson 0) : a = b :=
  toJson_inj a b
    (Json.eq_of_render blank (isIntegral_toJson a) (isIntegral_toJson b) same)

/-! ## Both forms -/

/-- A builder expression denotes the layout it was written for, and so no other layout shares it;
nor does another layout share the JSON text. -/
theorem determined_by_text {layout : Layout} (distinct : layout.hasDistinctKeys = true) :
    ofBuilder? layout.builder = some layout ∧
      (∀ other : Layout, other.hasDistinctKeys = true → other.builder = layout.builder →
        other = layout) ∧
      (∀ other : Layout, other.toJson.compact = layout.toJson.compact → other = layout) ∧
      (∀ other : Layout, other.toJson.pretty = layout.toJson.pretty → other = layout) := by
  have read := ofBuilder?_builder distinct
  refine ⟨read, fun other distinct' same => ?_, fun other => eq_of_render_toJson Json.isBlank_compact,
    fun other => eq_of_render_toJson Json.isBlank_pretty⟩
  have read' := ofBuilder?_builder distinct'
  rw [same, read] at read'
  exact (Option.some.inj read').symm

/-- Names that look like parts of an expression, an empty record and an empty enum. -/
def deceptive : Layout :=
  .struct [("\"), (\"", .array (.option (.defined "])\\")) 3), ("", .struct []), ("\n\x7f", .enum [])]

theorem determined_by_text_deceptive :
    deceptive.hasDistinctKeys = true ∧ ofBuilder? deceptive.builder = some deceptive ∧
      ∀ other : Layout, other.toJson.compact = deceptive.toJson.compact → other = deceptive :=
  ⟨rfl, (determined_by_text rfl).1, (determined_by_text rfl).2.2.1⟩

end WireSchema.Layout
