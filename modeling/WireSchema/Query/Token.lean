import WireSchema.Json.Parser

/-! Tokens of a query text. A run of operator characters is one token, blanks separate, and a
number sign starts a comment. -/

namespace WireSchema.Query

inductive Token where
  | name (text : String)
  | variable (name : String)
  /-- A name right after a point. -/
  | field (name : String)
  | number (text : List Char)
  | text (value : String)
  | operator (text : List Char)
  | mark (character : Char)
  deriving DecidableEq, Repr

namespace Token

def isNameStart (c : Char) : Bool := c.isAlpha || c = '_'

def isNameRest (c : Char) : Bool := c.isAlphanum || c = '_'

def isOperator (c : Char) : Bool := ['|', '=', '!', '<', '>', '+', '-', '*', '/', '%'].contains c

def isMark (c : Char) : Bool :=
  ['.', ':', ';', ',', '?', '(', ')', '[', ']', '\x7b', '\x7d'].contains c

def takeName? (text : List Char) : Option (String × List Char) :=
  match text with
  | c :: _ =>
    if isNameStart c then
      some (String.ofList (text.takeWhile isNameRest), text.dropWhile isNameRest)
    else none
  | [] => none

def takeNumber (text : List Char) : List Char × List Char :=
  let digits (text : List Char) := (text.takeWhile Char.isDigit, text.dropWhile Char.isDigit)
  let (whole, rest) := digits text
  let (fraction, rest) := match rest with
    | '.' :: d :: more =>
      if d.isDigit then ('.' :: (digits (d :: more)).1, (digits (d :: more)).2) else ([], rest)
    | _ => ([], rest)
  let (exponent, rest) := match rest with
    | e :: sign :: d :: more =>
      if (e = 'e' || e = 'E') && (sign = '+' || sign = '-') && d.isDigit then
        (e :: sign :: (digits (d :: more)).1, (digits (d :: more)).2)
      else if (e = 'e' || e = 'E') && sign.isDigit then
        (e :: (digits (sign :: d :: more)).1, (digits (sign :: d :: more)).2)
      else ([], rest)
    | [e, d] => if (e = 'e' || e = 'E') && d.isDigit then ([e, d], []) else ([], rest)
    | _ => ([], rest)
  (whole ++ fraction ++ exponent, rest)

def takeText? (text : List Char) : Option (String × List Char) :=
  match Json.Scan.scanString text with
  | .closed (.ok value) rest => some (String.ofList value, rest)
  | _ => none

def take? : List Char → Option (Token × List Char)
  | [] => none
  | '"' :: rest => (takeText? rest).map fun found => (.text found.1, found.2)
  | '$' :: rest => (takeName? rest).map fun found => (.variable found.1, found.2)
  | '.' :: rest =>
    match takeName? rest with
    | some (ident, rest) => some (.field ident, rest)
    | none => some (.mark '.', rest)
  | c :: rest =>
    if c.isDigit then
      let (digits, rest) := takeNumber (c :: rest)
      some (.number digits, rest)
    else if isOperator c then
      some (.operator (c :: rest.takeWhile isOperator), rest.dropWhile isOperator)
    else if isMark c then some (.mark c, rest)
    else (takeName? (c :: rest)).map fun found => (.name found.1, found.2)

/-- Every token takes a character at least, so that there are no more than characters. -/
def readWithin : Nat → List Char → Option (List Token)
  | 0, [] => some []
  | 0, _ :: _ => none
  | fuel + 1, chars =>
    match chars with
    | [] => some []
    | '#' :: rest => readWithin fuel (rest.dropWhile (· ≠ '\n'))
    | c :: rest =>
      if c.isWhitespace then readWithin fuel rest
      else do
        let (token, rest) ← take? (c :: rest)
        return token :: (← readWithin fuel rest)

def read (text : String) : Option (List Token) :=
  readWithin text.length text.toList

end Token

end WireSchema.Query
