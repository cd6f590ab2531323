import WireSchema.Text.Printable

/-! Quoted text: quotes and backslashes are escaped, the common controls have short escapes,
and every other hidden character is written by its code point. -/

namespace WireSchema.Quoted

def hexDigits (n : Nat) : List Char :=
  Nat.toDigits 16 n

def codePoint (c : Char) : List Char :=
  '\\' :: 'u' :: '\x7b' :: hexDigits c.toNat ++ ['\x7d']

/-- The escape of a character between two marks `mark`; the other kind of mark stands for itself. -/
def escapeChar (mark c : Char) : List Char :=
  if c = mark || c = '\\' then ['\\', c]
  else if c = '\n' then ['\\', 'n']
  else if c = '\r' then ['\\', 'r']
  else if c = '\t' then ['\\', 't']
  else if c = '\x00' then ['\\', '0']
  else if Printable.isHidden c then codePoint c
  else [c]

def quoteChars (text : List Char) : List Char :=
  '"' :: text.flatMap (escapeChar '"') ++ ['"']

def quote (text : String) : String :=
  String.ofList (quoteChars text.toList)

def quoteChar (c : Char) : String :=
  String.ofList ('\'' :: escapeChar '\'' c ++ ['\''])

def quoteList (texts : List String) : String :=
  "[" ++ ", ".intercalate (texts.map quote) ++ "]"

end WireSchema.Quoted
