import WireSchema.Json.Basic

/-! Filters: what a query does to a JSON value. A filter yields any number of values, and some
filters also name places inside their input, which can then be updated. -/

namespace WireSchema.Query

inductive Unary where
  | negate
  | length
  | sum
  | sort
  | reverse
  | keys
  deriving DecidableEq, Repr

inductive Binary where
  | add
  | multiply
  | equal
  | unequal
  deriving DecidableEq, Repr

inductive Filter where
  | identity
  /-- Yields nothing. -/
  | empty
  | fail
  | literal (value : Json)
  | variable (name : String)
  /-- Keys and bounds are computed from the input of the whole path. -/
  | index (base key : Filter)
  | sliceFrom (base start : Filter)
  | sliceTo (base stop : Filter)
  | sliceBetween (base start stop : Filter)
  | iterate (base : Filter)
  /-- An array of all values. -/
  | collect (items : Filter)
  /-- An object with one member. -/
  | entry (key value : Filter)
  | unary (op : Unary)
  | binary (op : Binary) (left right : Filter)
  | pipe (left right : Filter)
  | comma (left right : Filter)
  /-- Values of `left` that are not false or null, or else those of `right`. -/
  | alternative (left right : Filter)
  | condition (test yes no : Filter)
  | bind (source : Filter) (name : String) (body : Filter)
  | assign (path value : Filter)
  | update (path change : Filter)
  deriving Repr

namespace Filter

def null : Filter := literal .null

def bool (b : Bool) : Filter := literal (.bool b)

def text (s : String) : Filter := literal (.string s)

def member (base : Filter) (name : String) : Filter := index base (text name)

def not : Filter := condition identity (bool false) (bool true)

def map (change : Filter) : Filter := collect (pipe (iterate identity) change)

def select (test : Filter) : Filter := condition test identity empty

def delete (path : Filter) : Filter := update path empty

def object : List (Filter × Filter) → Filter
  | [] => literal (.object [])
  | [(key, value)] => entry key value
  | (key, value) :: rest => binary .add (entry key value) (object rest)

end Filter

end WireSchema.Query
