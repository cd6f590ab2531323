import WireSchema.Json.Scan.String
import WireSchema.Json.Scan.Number

/-! Values of a JSON text. Scanning turns the text into a draft and gives the text after it,
or none if the structure broke. -/

namespace WireSchema.Json.Scan

def isBlank (c : Char) : Bool :=
  c = ' ' || c = '\t' || c = '\n' || c = '\r'

def skipBlank (text : List Char) : List Char :=
  text.dropWhile isBlank

def scanWord : List Char → List Char → Except SyntaxError (List Char)
  | [], text => .ok text
  | _ :: _, [] => .error .endOfValue
  | expected :: word, c :: text => if c = expected then scanWord word text else .error .expectedWord

abbrev Scanned := Draft × Option (List Char)

def broken (fault : Fault) : Scanned :=
  (.missing fault, none)

def word (expected : List Char) (draft : Draft) (text : List Char) : Scanned :=
  match scanWord expected text with
  | .ok rest => (draft, some rest)
  | .error error => broken (.both error)

def number (negative : Bool) (text : List Char) : Scanned :=
  match scanNumber negative text with
  | .closed numeral rest => (.number numeral.value, some rest)
  | .broken f => broken f

def string (text : List Char) : Scanned :=
  match scanString text with
  | .closed value rest => (.string (value.map String.ofList), some rest)
  | .broken f => broken f

def nextItem (first : Bool) (text : List Char) : Except Fault (List Char) :=
  if first then .ok text
  else match text with
    | ',' :: rest =>
      match skipBlank rest with
      | [] => .error (.both .endOfValue)
      | ']' :: _ => .error ⟨.trailingComma, .expectedValue⟩
      | item => .ok item
    | _ => .error (.both .expectedArraySeparator)

def nextKey (first : Bool) (text : List Char) : Except Fault (List Char) :=
  if first then
    match text with
    | '"' :: key => .ok key
    | _ => .error (.both .keyNotString)
  else match text with
    | ',' :: rest =>
      match skipBlank rest with
      | '"' :: key => .ok key
      | '}' :: _ => .error ⟨.trailingComma, .keyNotString⟩
      | [] => .error ⟨.endOfValue, .endOfObject⟩
      | _ => .error (.both .keyNotString)
    | _ => .error (.both .expectedObjectSeparator)

abbrev ScannedItems := List Draft × Option Fault × Option (List Char)

abbrev ScannedMembers :=
  List (Except SyntaxError String × Draft) × Option Fault × Option (List Char)

/- Every second step takes a character, so that a text is never out of fuel of twice its length. -/
mutual

def scanValue : Nat → List Char → Scanned
  | 0, _ => broken (.both .endOfValue)
  | fuel + 1, text =>
    match skipBlank text with
    | [] => broken (.both .endOfValue)
    | 'n' :: rest => word ['u', 'l', 'l'] .null rest
    | 't' :: rest => word ['r', 'u', 'e'] (.bool true) rest
    | 'f' :: rest => word ['a', 'l', 's', 'e'] (.bool false) rest
    | '-' :: rest => number true rest
    | '"' :: rest => string rest
    | '[' :: rest =>
      let (items, stop, rest) := scanItems fuel true rest
      (.array items stop, rest)
    | '{' :: rest =>
      let (members, stop, rest) := scanMembers fuel true rest
      (.object members stop, rest)
    | c :: rest => if c.isDigit then number false (c :: rest) else broken (.both .expectedValue)
termination_by structural fuel => fuel

def scanItems : Nat → Bool → List Char → ScannedItems
  | 0, _, _ => ([], some (.both .endOfArray), none)
  | fuel + 1, first, text =>
    match skipBlank text with
    | [] => ([], some (.both .endOfArray), none)
    | ']' :: rest => ([], none, some rest)
    | text =>
      match nextItem first text with
      | .error fault => ([], some fault, none)
      | .ok text =>
        match scanValue fuel text with
        | (item, none) => ([item], none, none)
        | (item, some rest) =>
          let (items, stop, rest) := scanItems fuel false rest
          (item :: items, stop, rest)
termination_by structural fuel => fuel

def scanMembers : Nat → Bool → List Char → ScannedMembers
  | 0, _, _ => ([], some (.both .endOfObject), none)
  | fuel + 1, first, text =>
    match skipBlank text with
    | [] => ([], some (.both .endOfObject), none)
    | '}' :: rest => ([], none, some rest)
    | text =>
      match nextKey first text with
      | .error fault => ([], some fault, none)
      | .ok text =>
        match scanString text with
        | .broken fault => ([], some fault, none)
        | .closed key rest =>
          let key := key.map String.ofList
          match skipBlank rest with
          | [] => ([(key, .noColon .endOfObject)], none, none)
          | ':' :: rest =>
            match scanValue fuel rest with
            | (value, none) => ([(key, value)], none, none)
            | (value, some rest) =>
              let (members, stop, rest) := scanMembers fuel false rest
              ((key, value) :: members, stop, rest)
          | _ => ([(key, .noColon .expectedColon)], none, none)
termination_by structural fuel => fuel

end

def scan (text : String) : Scanned :=
  let chars := text.toList
  scanValue (2 * chars.length + 1) chars

end WireSchema.Json.Scan
