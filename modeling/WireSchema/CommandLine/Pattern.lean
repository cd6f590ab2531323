/-! File name patterns. A question mark stands for a character, an asterisk for any number of
them, brackets for one of a class, and two asterisks alone for directories at any depth. -/

namespace WireSchema.CommandLine

inductive PatternFault where
  | wildcards
  | recursive
  | range
  deriving DecidableEq, Repr

structure PatternError where
  position : Nat
  fault : PatternFault
  deriving DecidableEq, Repr

def PatternFault.message : PatternFault → String
  | wildcards => "wildcards are either regular `*` or recursive `**`"
  | recursive => "recursive wildcards must form a single path component"
  | range => "invalid range pattern"

def PatternError.message (error : PatternError) : String :=
  s!"Pattern syntax error near position {error.position}: {error.fault.message}"

inductive PatternPart where
  | literal (character : Char)
  | anyCharacter
  | anySequence
  /-- Characters from ranges, or those outside of all ranges. -/
  | class (ranges : List (Char × Char)) (inside : Bool)
  | anyDepth
  deriving DecidableEq, Repr

abbrev Pattern := List PatternPart

namespace Pattern

/-- Ranges inside brackets; a character alone is a range, too. -/
def ranges : List Char → List (Char × Char)
  | first :: '-' :: last :: rest => (first, last) :: ranges rest
  | c :: rest => (c, c) :: ranges rest
  | [] => []

/-- A class after its opening bracket, with the text after it and its length. The first character
is a member even if it is a closing bracket. -/
def takeClass? (text : List Char) : Option (PatternPart × Nat × List Char) :=
  let members (first : Char) (more : List Char) (inside : Bool) :=
    let others := more.takeWhile (· ≠ ']')
    match more.dropWhile (· ≠ ']') with
    | _ :: rest => some (PatternPart.class (ranges (first :: others)) inside,
        others.length + 3 + (if inside then 0 else 1), rest)
    | [] => none
  match text with
  | '!' :: first :: more => members first more false
  | first :: more => if first = '!' then none else members first more true
  | [] => none

/-- Reads a pattern at a position, after a character; fuel is the length of the text. -/
def readWithin : Nat → Nat → Option Char → List Char → Except PatternError Pattern
  | _, _, _, [] => .ok []
  | 0, _, _, _ :: _ => .ok []
  | fuel + 1, position, previous, '*' :: rest =>
    let stars := rest.takeWhile (· = '*')
    match stars.length, rest.dropWhile (· = '*') with
    | 0, rest => do return .anySequence :: (← readWithin fuel (position + 1) (some '*') rest)
    | 1, rest => do
      if previous.any (· ≠ '/') then throw ⟨position - 1, .recursive⟩
      match rest with
      | [] => return [.anyDepth]
      | '/' :: rest => return .anyDepth :: (← readWithin fuel (position + 3) (some '/') rest)
      | _ => throw ⟨position + 2, .recursive⟩
    | _, _ => .error ⟨position + 2, .wildcards⟩
  | fuel + 1, position, _, '?' :: rest => do
    return .anyCharacter :: (← readWithin fuel (position + 1) (some '?') rest)
  | fuel + 1, position, _, '[' :: rest =>
    match takeClass? rest with
    | some (part, length, rest) => do
      return part :: (← readWithin fuel (position + length) (some ']') rest)
    | none => .error ⟨position, .range⟩
  | fuel + 1, position, _, c :: rest => do
    return .literal c :: (← readWithin fuel (position + 1) (some c) rest)

def read (text : List Char) : Except PatternError Pattern :=
  readWithin text.length 0 none text

def suffixes : List α → List (List α)
  | [] => [[]]
  | a :: rest => (a :: rest) :: suffixes rest

def isMember (ranges : List (Char × Char)) (c : Char) : Bool :=
  ranges.any fun range => range.1 ≤ c && c ≤ range.2

def fits : Pattern → List Char → Bool
  | [], name => name.isEmpty
  | .anySequence :: rest, name | .anyDepth :: rest, name => (suffixes name).any (fits rest)
  | .literal c :: rest, name =>
    match name with
    | c' :: name => c = c' && fits rest name
    | [] => false
  | .anyCharacter :: rest, name =>
    match name with
    | _ :: name => fits rest name
    | [] => false
  | .class ranges inside :: rest, name =>
    match name with
    | c :: name => isMember ranges c == inside && fits rest name
    | [] => false

def plainName? : Pattern → Option (List Char)
  | [] => some []
  | .literal c :: rest => (plainName? rest).map (c :: ·)
  | _ => none

def isRecursive (pattern : Pattern) : Bool :=
  pattern.contains .anyDepth

end Pattern

end WireSchema.CommandLine
