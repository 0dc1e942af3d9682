/-
  Reshape.Path.Loose — the loose spelling of paths, brought into the strict one.

  A transform may write a path without a root marker, with `@` for the root, and with any
  text as a dotted name. `normalize` turns such a path segment by segment into a query
  that begins with `$`: a dotted name that is not a plain identifier is put in brackets and
  quotes, and what already stands in brackets is kept as it is. What is no segment at all
  is kept too, for the reader of queries to reject.
  - The empty path is the root itself.
  - A path that begins with neither a root marker nor a bracket nor a dot begins with a name.
-/

import Reshape.Text.Basic

namespace Reshape.Path

def isLetter (c : Char) : Bool := ('a' ≤ c && c ≤ 'z') || ('A' ≤ c && c ≤ 'Z')

/-- Whether the name can stand behind a dot in a strict path: a letter or underscore, then digits too. -/
def isIdentifier : List Char → Bool
  | [] => false
  | c :: rest => (isLetter c || c == '_') && rest.all fun c => isLetter c || ('0' ≤ c && c ≤ '9') || c == '_'

/-- A dotted name runs up to the next dot or opening bracket. -/
def endsName (c : Char) : Bool := c == '.' || c == '['

def splitName (text : List Char) : List Char × List Char :=
  (text.takeWhile (!endsName ·), text.dropWhile (!endsName ·))

def quotedNameChar (c : Char) : List Char := if c = '\\' || c = '\'' then ['\\', c] else [c]

def bracketed (name : List Char) : List Char := ['[', '\''] ++ name.flatMap quotedNameChar ++ ['\'', ']']

/-- A name as the strict path writes it; `dot` is what leads a plain name. An empty name leaves a lone dot,
    which no strict path has. -/
def memberChars (dot name : List Char) : List Char :=
  if name = ['*'] || isIdentifier name then dot ++ name
  else if name = [] then ['.']
  else bracketed name

/-- What scanning for the closing bracket has seen: how many brackets are open, and the quote that is open
    with whether a backslash was just read. -/
structure BracketScan where
  depth : Nat
  quote : Option (Char × Bool)
  deriving DecidableEq, Repr

def BracketScan.step (s : BracketScan) (c : Char) : BracketScan :=
  match s.quote with
  | some (q, true) => { s with quote := some (q, false) }
  | some (q, false) =>
    if c = '\\' then { s with quote := some (q, true) } else if c = q then { s with quote := none } else s
  | none =>
    if c = '\'' || c = '"' then { s with quote := some (c, false) }
    else if c = '[' then { s with depth := s.depth + 1 }
    else if c = ']' then { s with depth := s.depth - 1 }
    else s

def BracketScan.closed (s : BracketScan) (c : Char) : Bool := s.quote.isNone && c == ']' && s.depth == 0

/-- The characters up to the bracket that closes the scan, and those behind it; all of them if none closes it. -/
def splitBracketFrom (s : BracketScan) : List Char → List Char × List Char
  | [] => ([], [])
  | c :: rest =>
    let s := s.step c
    if s.closed c then ([c], rest)
    else let (inside, behind) := splitBracketFrom s rest; (c :: inside, behind)

def splitBracket (text : List Char) : List Char × List Char := splitBracketFrom ⟨0, none⟩ text

theorem length_dropWhile_le {p : Char → Bool} (text : List Char) : (text.dropWhile p).length ≤ text.length :=
  (List.dropWhile_suffix p).length_le

theorem splitName_rest_le (text : List Char) : (splitName text).2.length ≤ text.length :=
  length_dropWhile_le text

theorem splitBracketFrom_append (s : BracketScan) (text : List Char) :
    (splitBracketFrom s text).1 ++ (splitBracketFrom s text).2 = text := by
  induction text generalizing s with
  | nil => rfl
  | cons c rest ih =>
    simp only [splitBracketFrom]
    split
    · rfl
    · simp [ih]

theorem splitBracketFrom_rest_lt (s : BracketScan) (c : Char) (text : List Char) :
    (splitBracketFrom s (c :: text)).2.length < (c :: text).length := by
  have h := congrArg List.length (splitBracketFrom_append (s.step c) text)
  simp only [splitBracketFrom]
  split
  · simp
  · simp only [List.length_append, List.length_cons] at h ⊢
    omega

def normalizeSegments (text : List Char) : List Char :=
  match text with
  | [] => []
  | '[' :: rest =>
    (splitBracket ('[' :: rest)).1 ++ normalizeSegments (splitBracket ('[' :: rest)).2
  | '.' :: '.' :: '[' :: rest => '.' :: '.' :: normalizeSegments ('[' :: rest)
  | '.' :: '.' :: rest =>
    '.' :: '.' :: memberChars [] (splitName rest).1 ++ normalizeSegments (splitName rest).2
  | '.' :: rest => memberChars ['.'] (splitName rest).1 ++ normalizeSegments (splitName rest).2
  | _ => text
termination_by text.length
decreasing_by
  · exact splitBracketFrom_rest_lt _ _ _
  · simp
  · have := splitName_rest_le rest; simp only [List.length_cons]; omega
  · have := splitName_rest_le rest; simp only [List.length_cons]; omega

/-- The path behind its root marker; one that begins with a name is led by a dot. -/
def withoutMarker : List Char → List Char
  | '$' :: rest => rest
  | '@' :: rest => rest
  | [] => []
  | '[' :: rest => '[' :: rest
  | '.' :: rest => '.' :: rest
  | text => '.' :: text

def normalize (path : List Char) : List Char := '$' :: normalizeSegments (withoutMarker (trimBlank path))

end Reshape.Path
