import WireSchema.Json.Basic
import WireSchema.Floating.Text

/-! JSON text of values, compact or with two spaces a level. Strings keep every character
that needs no escape, and numbers are written in their shortest form. -/

namespace WireSchema.Json

def hexPair (n : Nat) : List Char :=
  [Nat.digitChar (n / 16), Nat.digitChar (n % 16)]

def escapeChar (c : Char) : List Char :=
  if c = '"' then ['\\', '"']
  else if c = '\\' then ['\\', '\\']
  else if c = '\x08' then ['\\', 'b']
  else if c = '\x0c' then ['\\', 'f']
  else if c = '\n' then ['\\', 'n']
  else if c = '\r' then ['\\', 'r']
  else if c = '\t' then ['\\', 't']
  else if c.toNat < 0x20 then ['\\', 'u', '0', '0'] ++ hexPair c.toNat
  else [c]

def stringChars (text : List Char) : List Char :=
  '"' :: text.flatMap escapeChar ++ ['"']

def quoteString (text : String) : String :=
  String.ofList (stringChars text.toList)

def numberText : Number → String
  | .int i => toString i
  | .float x => Floating.jsonStyle.text x

structure Spacing where
  newline : Nat → String
  colon : String

def compactSpacing : Spacing where
  newline _ := ""
  colon := ":"

def prettySpacing : Spacing where
  newline depth := "\n" ++ String.join (List.replicate depth "  ")
  colon := ": "

/-- Parts between brackets, each on its line one level deeper; nothing stands between the
brackets of an empty list. -/
def bracketed (spacing : Spacing) (depth : Nat) (left right : String) : List String → String
  | [] => left ++ right
  | parts =>
    let newline := spacing.newline (depth + 1)
    left ++ newline ++ ("," ++ newline).intercalate parts ++ spacing.newline depth ++ right

mutual

def render (spacing : Spacing) : Json → Nat → String
  | .null, _ => "null"
  | .bool b, _ => if b then "true" else "false"
  | .number n, _ => numberText n
  | .string s, _ => quoteString s
  | .array items, depth => bracketed spacing depth "[" "]" (renderItems spacing items (depth + 1))
  | .object members, depth =>
    bracketed spacing depth "\x7b" "\x7d" (renderMembers spacing members (depth + 1))
termination_by structural json => json

def renderItems (spacing : Spacing) : List Json → Nat → List String
  | [], _ => []
  | item :: rest, depth => render spacing item depth :: renderItems spacing rest depth
termination_by structural items => items

def renderMembers (spacing : Spacing) : List (String × Json) → Nat → List String
  | [], _ => []
  | (key, value) :: rest, depth =>
    (quoteString key ++ spacing.colon ++ render spacing value depth) ::
      renderMembers spacing rest depth
termination_by structural members => members

end

def compact (json : Json) : String :=
  render compactSpacing json 0

def pretty (json : Json) : String :=
  render prettySpacing json 0

end WireSchema.Json
