/-
  Reshape.Path.Query — path queries, and the locations of what they find.

  A location is the list of steps that lead to a value inside another: member keys and item
  indices. As a pointer it is written with a slash before each step; in a key `~` is written
  `~0` and a slash `~1`, so that a key's slashes are not taken for separators. `Value.at?`
  follows a location.

  A query is a list of segments. Each segment is applied to every value that the ones before
  it found: a child segment looks at the value itself, a descending one at the value and
  everything below it. A segment's selectors pick children by name, by index, by a slice of
  indices, or by a test; their finds are concatenated, repetitions and all.
  - Inside a test `@` is the child under test and `$` the value that the query started from.
  - A comparison takes singular queries only: those that name at most one value.
-/

import Reshape.Json.Value
import Reshape.Text.Basic

namespace Reshape

/-! ## Locations -/

inductive Step where
  | key (k : String)
  | index (i : Nat)
  deriving DecidableEq, Repr

abbrev Location := List Step

def Value.child? : Value → Step → Option Value
  | .object members, .key k => Value.member? k members
  | .array items, .index i => items[i]?
  | _, _ => none

def Value.at? (v : Value) : Location → Option Value
  | [] => some v
  | s :: rest => (v.child? s).bind fun w => w.at? rest

def pointerChar (c : Char) : List Char :=
  if c = '~' then ['~', '0'] else if c = '/' then ['~', '1'] else [c]

def Step.token : Step → List Char
  | .key k => k.toList.flatMap pointerChar
  | .index i => natChars i

def Location.pointer (location : Location) : List Char := location.flatMap fun s => '/' :: s.token

/-- A pointer's token with `~1` read as a slash. What `~0` stands for is read afterwards, so that `~01` is `~1`. -/
def unescapeSlashes : List Char → List Char
  | '~' :: '1' :: rest => '/' :: unescapeSlashes rest
  | c :: rest => c :: unescapeSlashes rest
  | [] => []

def unescapeTildes : List Char → List Char
  | '~' :: '0' :: rest => '~' :: unescapeTildes rest
  | c :: rest => c :: unescapeTildes rest
  | [] => []

def tokenText (token : List Char) : List Char := unescapeTildes (unescapeSlashes token)

/-- The tokens of a pointer. A pointer that is not empty begins with a slash. -/
def pointerTokens? : List Char → Option (List (List Char))
  | [] => some []
  | '/' :: rest => some ((pieces rest).map tokenText)
  | _ => none

/-! ## Queries -/

namespace Path

/-- Where a query inside a test starts: at the value the whole query started from, or at the child under test. -/
inductive Origin where
  | root
  | here
  deriving DecidableEq, Repr

inductive SingularStep where
  | name (key : String)
  | index (i : Int)
  deriving DecidableEq, Repr

structure Singular where
  origin : Origin
  steps : List SingularStep
  deriving DecidableEq, Repr

inductive Comparison where
  | eq
  | ne
  | lt
  | le
  | gt
  | ge
  deriving DecidableEq, Repr

inductive Extent where
  | whole
  | part
  deriving DecidableEq, Repr

mutual

/-- What picks children of a value. A slice has a start, an end and a step. -/
inductive Selector where
  | name (key : String)
  | wildcard
  | index (i : Int)
  | slice (start stop : Option Int) (step : Int)
  | filter (test : Test)

inductive Segment where
  | mk (descends : Bool) (selectors : List Selector)

inductive Test where
  | or (a b : Test)
  | and (a b : Test)
  | not (a : Test)
  | exists_ (origin : Origin) (segments : List Segment)
  | compare (how : Comparison) (left right : Operand)
  | matches_ (extent : Extent) (text pattern : Operand)

inductive Operand where
  | literal (s : Scalar)
  | singular (q : Singular)
  | length (of : Operand)
  | count (of : Nodes)
  | only (of : Nodes)

inductive Nodes where
  | singular (q : Singular)
  | query (origin : Origin) (segments : List Segment)

end

abbrev Query := List Segment

/-- The step that a segment takes if it can only find one value. -/
def Segment.singular? : Segment → Option SingularStep
  | .mk false [.name key] => some (.name key)
  | .mk false [.index i] => some (.index i)
  | _ => none

def singularSteps? (segments : List Segment) : Option (List SingularStep) := segments.mapM Segment.singular?

end Path

end Reshape
