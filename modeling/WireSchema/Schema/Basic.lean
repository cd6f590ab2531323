import WireSchema.Bytes.Word

/-! The schema of an interface description: field types, the members and variants that use
them, and named definitions. -/

namespace WireSchema

inductive Width where
  | w8
  | w16
  | w32
  | w64
  | w128
  deriving DecidableEq, Repr

namespace Width

def bytes : Width → Nat
  | w8 => 1
  | w16 => 2
  | w32 => 4
  | w64 => 8
  | w128 => 16

def bitsText : Width → String
  | w8 => "8"
  | w16 => "16"
  | w32 => "32"
  | w64 => "64"
  | w128 => "128"

/-- Wide integers do not fit a JSON number everywhere and travel as text. -/
def isWide : Width → Bool
  | w64 | w128 => true
  | _ => false

def range (w : Width) : Nat := 256 ^ w.bytes

def containsNat (w : Width) (n : Nat) : Bool := n < w.range

def containsInt (w : Width) (i : Int) : Bool :=
  -(w.range / 2 : Nat) ≤ i && i < (w.range / 2 : Nat)

end Width

inductive Primitive where
  | bool
  | unsigned (width : Width)
  | signed (width : Width)
  | single
  | double
  | string
  | bytes
  | publicKey
  deriving DecidableEq, Repr

namespace Primitive

def all : List Primitive :=
  [bool, unsigned .w8, signed .w8, unsigned .w16, signed .w16, unsigned .w32, signed .w32,
   unsigned .w64, signed .w64, unsigned .w128, signed .w128, single, double, string, bytes,
   publicKey]

def name : Primitive → String
  | bool => "bool"
  | unsigned w => "u" ++ w.bitsText
  | signed w => "i" ++ w.bitsText
  | single => "f32"
  | double => "f64"
  | string => "string"
  | bytes => "bytes"
  | publicKey => "publicKey"

def ofName? (name : String) : Option Primitive :=
  all.find? fun p => p.name = name

theorem ofName?_name (p : Primitive) : ofName? p.name = some p := by
  cases p with
  | unsigned width => cases width <;> rfl
  | signed width => cases width <;> rfl
  | _ => rfl

example : all.map name = ["bool", "u8", "i8", "u16", "i16", "u32", "i32", "u64", "i64", "u128",
    "i128", "f32", "f64", "string", "bytes", "publicKey"] := rfl

def isWideInteger : Primitive → Bool
  | unsigned w | signed w => w.isWide
  | _ => false

end Primitive

inductive FieldType where
  | primitive (primitive : Primitive)
  | vec (item : FieldType)
  | option (item : FieldType)
  | array (item : FieldType) (length : Nat)
  | hashMap (key value : FieldType)
  | defined (name : String)
  deriving DecidableEq, Repr

namespace FieldType

def isPrimitive : FieldType → Bool
  | primitive _ => true
  | _ => false

def isWideInteger : FieldType → Bool
  | primitive p => p.isWideInteger
  | _ => false

def text : FieldType → String
  | primitive p => p.name
  | vec item => "vec<" ++ item.text ++ ">"
  | option item => "option<" ++ item.text ++ ">"
  | array item length => s!"[{item.text}; {length}]"
  | hashMap key value => "hashMap<" ++ key.text ++ ", " ++ value.text ++ ">"
  | defined name => name

end FieldType

structure Field where
  name : String
  type : FieldType
  deriving DecidableEq, Repr

inductive Shape where
  | empty
  | named (fields : List Field)
  | tuple (types : List FieldType)
  deriving DecidableEq, Repr

structure Variant where
  name : String
  shape : Shape
  deriving DecidableEq, Repr

inductive TypeBody where
  | struct (fields : List Field)
  | enum (variants : List Variant)
  deriving DecidableEq, Repr

structure TypeDef where
  name : String
  body : TypeBody
  deriving DecidableEq, Repr

structure Idl where
  version : Option String
  name : Option String
  types : List TypeDef
  deriving DecidableEq, Repr

inductive DefinedKind where
  | struct
  | enum
  deriving DecidableEq, Repr

def TypeBody.kind : TypeBody → DefinedKind
  | struct _ => .struct
  | enum _ => .enum

def DefinedKind.text : DefinedKind → String
  | struct => "struct"
  | enum => "enum"

def tupleKey (position : Nat) : String := s!"_{position}"

/-- The members of a payload with the keys they have in a record. -/
def Shape.members : Shape → List Field
  | empty => []
  | named fields => fields
  | tuple types => types.mapIdx fun position type => ⟨tupleKey position, type⟩

end WireSchema
