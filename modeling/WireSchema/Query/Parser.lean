import WireSchema.Query.Filter
import WireSchema.Query.Token

/-! Query texts read as filters. Operators bind in this order, the loosest first: the pipe, the
comma, updates, the alternative, comparisons, sums and products. -/

namespace WireSchema.Query

structure Operator where
  precedence : Nat
  /-- Whether of two operators in a row the second one binds first. -/
  rightward : Bool
  combine : Filter → Filter → Filter

namespace Operator

/-- The operator of a token; between the members of an object, a comma is none. -/
def ofToken? (commas : Bool) : Token → Option Operator
  | .operator ['|'] => some ⟨0, true, .pipe⟩
  | .mark ',' => if commas then some ⟨1, false, .comma⟩ else none
  | .operator ['='] => some ⟨2, true, .assign⟩
  | .operator ['|', '='] => some ⟨2, true, .update⟩
  | .operator ['/', '/'] => some ⟨3, false, .alternative⟩
  | .operator ['=', '='] => some ⟨4, false, .binary .equal⟩
  | .operator ['!', '='] => some ⟨4, false, .binary .unequal⟩
  | .operator ['+'] => some ⟨5, false, .binary .add⟩
  | .operator ['*'] => some ⟨6, false, .binary .multiply⟩
  | _ => none

end Operator

def reservedWords : List String :=
  ["def", "if", "then", "elif", "else", "end", "as", "reduce", "foreach", "try", "catch", "label",
   "import", "include", "and", "or", "__loc__"]

def Filter.ofName? : String → List Filter → Option Filter
  | "null", [] => some .null
  | "true", [] => some (.bool true)
  | "false", [] => some (.bool false)
  | "empty", [] => some .empty
  | "error", [] => some .fail
  | "error", [message] => some (.pipe message .fail)
  | "not", [] => some .not
  | "length", [] => some (.unary .length)
  | "add", [] => some (.unary .sum)
  | "add", [items] => some (.pipe (.collect items) (.unary .sum))
  | "sort", [] => some (.unary .sort)
  | "reverse", [] => some (.unary .reverse)
  | "keys", [] => some (.unary .keys)
  | "map", [change] => some (.map change)
  | "select", [test] => some (.select test)
  | "del", [path] => some (.delete path)
  | _, _ => none

/-- A number is one of JSON, where leading zeros do not count. -/
def Filter.ofNumber? (text : List Char) : Option Filter :=
  let digits := match text.dropWhile (· = '0') with
    | [] => ['0']
    | c :: rest => if c.isDigit then c :: rest else '0' :: c :: rest
  (Json.parse (String.ofList digits)).toOption.map .literal

def expect (token : Token) : List Token → Option (List Token)
  | first :: rest => if first = token then some rest else none
  | [] => none

/- Each function takes fuel, of which a token uses up four units at most. `scope` holds the names
that are bound. -/
mutual

/-- A filter whose operators have at least the precedence `least`. -/
def parseFilter : Nat → List String → Bool → Nat → List Token → Option (Filter × List Token)
  | 0, _, _, _, _ => none
  | fuel + 1, scope, commas, least, tokens => do
    let (left, rest) ← parseTerm fuel scope tokens
    parseOperators fuel scope commas least left rest

def parseOperators : Nat → List String → Bool → Nat → Filter → List Token →
    Option (Filter × List Token)
  | 0, _, _, _, _, _ => none
  | fuel + 1, scope, commas, least, left, tokens =>
    match tokens with
    | .name "as" :: .variable x :: .operator ['|'] :: rest =>
      if least = 0 then do
        let (body, rest) ← parseFilter fuel (x :: scope) commas 0 rest
        return (.bind left x body, rest)
      else some (left, tokens)
    | token :: rest =>
      match Operator.ofToken? commas token with
      | none => some (left, tokens)
      | some op =>
        if op.precedence < least then some (left, tokens)
        else do
          let next := if op.rightward then op.precedence else op.precedence + 1
          let (right, rest) ← parseFilter fuel scope commas next rest
          parseOperators fuel scope commas least (op.combine left right) rest
    | [] => some (left, [])

def parseTerm : Nat → List String → List Token → Option (Filter × List Token)
  | 0, _, _ => none
  | fuel + 1, scope, tokens =>
    match tokens with
    | .mark '.' :: .text name :: rest => parseSuffix fuel scope (.member .identity name) rest
    | .mark '.' :: rest => parseSuffix fuel scope .identity rest
    | .field name :: rest => parseSuffix fuel scope (.member .identity name) rest
    | .variable x :: rest =>
      if scope.contains x then parseSuffix fuel scope (.variable x) rest else none
    | .number text :: rest => do parseSuffix fuel scope (← Filter.ofNumber? text) rest
    | .text value :: rest => parseSuffix fuel scope (.text value) rest
    | .operator ['-'] :: rest => do
      let (operand, rest) ← parseTerm fuel scope rest
      return (.pipe operand (.unary .negate), rest)
    | .mark '(' :: rest => do
      let (inner, rest) ← parseFilter fuel scope true 0 rest
      parseSuffix fuel scope inner (← expect (.mark ')') rest)
    | .mark '[' :: .mark ']' :: rest => parseSuffix fuel scope (.literal (.array [])) rest
    | .mark '[' :: rest => do
      let (items, rest) ← parseFilter fuel scope true 0 rest
      parseSuffix fuel scope (.collect items) (← expect (.mark ']') rest)
    | .mark '\x7b' :: .mark '\x7d' :: rest => parseSuffix fuel scope (.object []) rest
    | .mark '\x7b' :: rest => do
      let (entries, rest) ← parseEntries fuel scope rest
      parseSuffix fuel scope (.object entries) rest
    | .name "if" :: rest => do
      let (condition, rest) ← parseCondition fuel scope rest
      parseSuffix fuel scope condition rest
    | .name name :: .mark '(' :: rest => do
      if reservedWords.contains name then none
      let (arguments, rest) ← parseArguments fuel scope rest
      parseSuffix fuel scope (← Filter.ofName? name arguments) rest
    | .name name :: rest => do parseSuffix fuel scope (← Filter.ofName? name []) rest
    | _ => none

def parseSuffix : Nat → List String → Filter → List Token → Option (Filter × List Token)
  | 0, _, _, _ => none
  | fuel + 1, scope, base, tokens =>
    match tokens with
    | .field name :: rest => parseSuffix fuel scope (.member base name) rest
    | .mark '.' :: .text name :: rest => parseSuffix fuel scope (.member base name) rest
    | .mark '.' :: .mark '[' :: rest => parseSuffix fuel scope base (.mark '[' :: rest)
    | .mark '[' :: .mark ']' :: rest => parseSuffix fuel scope (.iterate base) rest
    | .mark '[' :: .mark ':' :: rest => do
      let (stop, rest) ← parseFilter fuel scope true 0 rest
      parseSuffix fuel scope (.sliceTo base stop) (← expect (.mark ']') rest)
    | .mark '[' :: rest => do
      let (key, rest) ← parseFilter fuel scope true 0 rest
      match rest with
      | .mark ']' :: rest => parseSuffix fuel scope (.index base key) rest
      | .mark ':' :: .mark ']' :: rest => parseSuffix fuel scope (.sliceFrom base key) rest
      | .mark ':' :: rest =>
        let (stop, rest) ← parseFilter fuel scope true 0 rest
        parseSuffix fuel scope (.sliceBetween base key stop) (← expect (.mark ']') rest)
      | _ => none
    | tokens => some (base, tokens)

/-- The rest of a condition after its first word. Without an alternative the input stays. -/
def parseCondition : Nat → List String → List Token → Option (Filter × List Token)
  | 0, _, _ => none
  | fuel + 1, scope, tokens => do
    let (test, rest) ← parseFilter fuel scope true 0 tokens
    let (yes, rest) ← parseFilter fuel scope true 0 (← expect (.name "then") rest)
    match rest with
    | .name "end" :: rest => return (.condition test yes .identity, rest)
    | .name "elif" :: rest =>
      let (no, rest) ← parseCondition fuel scope rest
      return (.condition test yes no, rest)
    | .name "else" :: rest =>
      let (no, rest) ← parseFilter fuel scope true 0 rest
      return (.condition test yes no, ← expect (.name "end") rest)
    | _ => none

def parseArguments : Nat → List String → List Token → Option (List Filter × List Token)
  | 0, _, _ => none
  | fuel + 1, scope, tokens => do
    let (first, rest) ← parseFilter fuel scope true 0 tokens
    match rest with
    | .mark ')' :: rest => return ([first], rest)
    | .mark ';' :: rest =>
      let (others, rest) ← parseArguments fuel scope rest
      return (first :: others, rest)
    | _ => none

def parseEntries : Nat → List String → List Token → Option (List (Filter × Filter) × List Token)
  | 0, _, _ => none
  | fuel + 1, scope, tokens => do
    let (entry, rest) ← parseEntry fuel scope tokens
    match rest with
    | .mark '\x7d' :: rest => return ([entry], rest)
    | .mark ',' :: .mark '\x7d' :: rest => return ([entry], rest)
    | .mark ',' :: rest =>
      let (others, rest) ← parseEntries fuel scope rest
      return (entry :: others, rest)
    | _ => none

/-- A key with its value, or a name that stands for both. -/
def parseEntry : Nat → List String → List Token → Option ((Filter × Filter) × List Token)
  | 0, _, _ => none
  | fuel + 1, scope, tokens =>
    match tokens with
    | .name key :: .mark ':' :: rest | .text key :: .mark ':' :: rest => do
      let (value, rest) ← parseFilter fuel scope false 0 rest
      return ((.text key, value), rest)
    | .mark '(' :: rest => do
      let (key, rest) ← parseFilter fuel scope true 0 rest
      let rest ← expect (.mark ')') rest
      let (value, rest) ← parseFilter fuel scope false 0 (← expect (.mark ':') rest)
      return ((key, value), rest)
    | .name key :: rest | .text key :: rest => some ((.text key, .member .identity key), rest)
    | .variable x :: rest =>
      if scope.contains x then some ((.text x, .variable x), rest) else none
    | _ => none

end

def Filter.parse? (text : String) : Option Filter := do
  let tokens ← Token.read text
  match ← parseFilter (4 * tokens.length + 4) [] true 0 tokens with
  | (filter, []) => return filter
  | _ => none

end WireSchema.Query
