import WireSchema.Json.Basic
import WireSchema.Layout.Basic
import WireSchema.Text.Quoted

/-! Text forms of layouts: the builder expression of emitted source, and JSON. -/

namespace WireSchema.Layout

def builderName : Primitive → String
  | .bool => "Bool"
  | .unsigned w => "U" ++ w.bitsText
  | .signed w => "I" ++ w.bitsText
  | .single => "F32"
  | .double => "F64"
  | .string => "String"
  | .bytes => "Bytes"
  | .publicKey => "PublicKey"

mutual

def builder : Layout → String
  | primitive p => "Layout::" ++ builderName p
  | vec item => "Layout::vec(" ++ builder item ++ ")"
  | array item length => "Layout::array(" ++ builder item ++ ", " ++ toString length ++ ")"
  | option item => "Layout::option(" ++ builder item ++ ")"
  | hashMap key value => "Layout::hash_map(" ++ builder key ++ ", " ++ builder value ++ ")"
  | struct [] => "Layout::unit()"
  | struct (first :: rest) =>
    "Layout::structure([" ++ ", ".intercalate (builderEntry first :: builderEntries rest) ++ "])"
  | enum variants => "Layout::enumeration([" ++ ", ".intercalate (builderEntries variants) ++ "])"
  | defined name => "Layout::defined(" ++ Quoted.quote name ++ ")"
termination_by structural layout => layout

def builderEntry : String × Layout → String
  | (key, layout) => "(" ++ Quoted.quote key ++ ", " ++ builder layout ++ ")"
termination_by structural entry => entry

def builderEntries : List (String × Layout) → List String
  | [] => []
  | entry :: rest => builderEntry entry :: builderEntries rest
termination_by structural entries => entries

end

theorem builder_primitive (p : Primitive) :
    builder (.primitive p) = "Layout::" ++ builderName p := rfl

theorem builder_vec (item : Layout) : builder (.vec item) = "Layout::vec(" ++ builder item ++ ")" :=
  rfl

theorem builder_array (item : Layout) (length : Nat) :
    builder (.array item length) =
      "Layout::array(" ++ builder item ++ ", " ++ toString length ++ ")" := rfl

theorem builder_option (item : Layout) :
    builder (.option item) = "Layout::option(" ++ builder item ++ ")" := rfl

theorem builder_hashMap (key value : Layout) :
    builder (.hashMap key value) =
      "Layout::hash_map(" ++ builder key ++ ", " ++ builder value ++ ")" := rfl

theorem builder_unit : builder unit = "Layout::unit()" := rfl

theorem builder_struct_cons (field : String × Layout) (fields : List (String × Layout)) :
    builder (.struct (field :: fields)) =
      "Layout::structure([" ++ ", ".intercalate (builderEntries (field :: fields)) ++ "])" := rfl

theorem builder_enum (variants : List (String × Layout)) :
    builder (.enum variants) =
      "Layout::enumeration([" ++ ", ".intercalate (builderEntries variants) ++ "])" := rfl

theorem builder_defined (name : String) :
    builder (.defined name) = "Layout::defined(" ++ Quoted.quote name ++ ")" := rfl

theorem builderEntry_mk (key : String) (layout : Layout) :
    builderEntry (key, layout) = "(" ++ Quoted.quote key ++ ", " ++ builder layout ++ ")" := rfl

theorem builderEntries_eq_map (entries : List (String × Layout)) :
    builderEntries entries = entries.map builderEntry :=
  eq_map_of_cons rfl (fun _ _ => rfl) entries

mutual

def toJson : Layout → Json
  | primitive p => .string p.name
  | vec item => .object [("vec", toJson item)]
  | array item length => .object [("array", .array [toJson item, .nat length])]
  | option item => .object [("option", toJson item)]
  | hashMap key value => .object [("hashMap", .array [toJson key, toJson value])]
  | struct fields => .object [("struct", .object (toJsonEntries fields))]
  | enum variants => .object [("enum", .object (toJsonEntries variants))]
  | defined name => .object [("defined", .string name)]
termination_by structural layout => layout

def toJsonEntries : List (String × Layout) → List (String × Json)
  | [] => []
  | (key, layout) :: rest => (key, toJson layout) :: toJsonEntries rest
termination_by structural entries => entries

end

end WireSchema.Layout

namespace WireSchema.Registry

def toJson (registry : Registry) : Json :=
  .object (Layout.toJsonEntries registry)

end WireSchema.Registry
