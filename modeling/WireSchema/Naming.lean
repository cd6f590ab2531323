/-! Names in emitted source: case conversions of schema names, and the escapes that keep a
converted name a legal identifier of the emitted language. -/

namespace WireSchema.Naming

def startsWord (previous next : Option Char) : Bool :=
  match previous with
  | none => false
  | some p => p.isLower || p.isDigit || (p.isUpper && next.any Char.isLower)

def snakeChars : Option Char → List Char → List Char
  | _, [] => []
  | previous, c :: rest =>
    if c.isUpper then
      if startsWord previous rest.head? then
        '_' :: c.toLower :: snakeChars (some c) rest
      else
        c.toLower :: snakeChars (some c) rest
    else
      c :: snakeChars (some c) rest

/-- `vecOfOption` becomes `vec_of_option` and `HTTPServer` becomes `http_server`. -/
def snakeCase (name : String) : String :=
  String.ofList (snakeChars none name.toList)

def capitalize : List Char → List Char
  | [] => []
  | c :: rest => c.toUpper :: rest

/-- An underscore goes before a leading digit and stands for an empty name. -/
def guardStart (name : List Char) : List Char :=
  match name with
  | [] => ['_']
  | c :: _ => if c.isDigit then '_' :: name else name

def pascalChars (name : List Char) : List Char :=
  guardStart ((name.splitOn '_').flatMap capitalize)

/-- `my_type` becomes `MyType`; a name in Pascal case stays as it is. -/
def pascalCase (name : String) : String :=
  String.ofList (pascalChars name.toList)

def keywords : List String :=
  ["as", "async", "await", "box", "break", "const", "continue", "crate", "do", "dyn", "else",
   "enum", "extern", "false", "final", "fn", "for", "gen", "if", "impl", "in", "let", "loop",
   "macro", "match", "mod", "move", "mut", "override", "priv", "pub", "ref", "return", "self",
   "Self", "static", "struct", "super", "trait", "true", "try", "type", "typeof", "union",
   "unsafe", "unsized", "use", "virtual", "where", "while", "yield"]

/-- Keywords that have no raw form. -/
def pathKeywords : List String :=
  ["crate", "self", "Self", "super"]

def takenTypeNames : List String :=
  ["Box", "Clone", "CodecError", "ConvertError", "Decoded", "Default", "Deserialize", "Err",
   "Error", "Layout", "None", "Ok", "Option", "PublicKey", "Result", "Self", "Serialize", "Some",
   "String", "Vec"]

def escapeKeyword (name : String) : String :=
  if pathKeywords.contains name then name ++ "_"
  else if keywords.contains name then "r#" ++ name
  else name

def fieldIdent (name : String) : String :=
  escapeKeyword (snakeCase name)

def typeIdent (name : String) : String :=
  let ident := pascalCase name
  if takenTypeNames.contains ident then ident ++ "_" else ident

def fieldsItem (name : String) : String := pascalCase name ++ "Fields"

def jsonItem (name : String) : String := pascalCase name ++ "Json"

def kindItem (name : String) : String := pascalCase name ++ "Kind"

def stripRaw : List Char → List Char
  | 'r' :: '#' :: rest => rest
  | ident => ident

def fileStem (ident : String) : String :=
  String.ofList (stripRaw ident.toList)

end WireSchema.Naming
