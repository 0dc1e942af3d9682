/-
  Reshape.Json.Read — documents from text.

  A document is one value between gaps. A gap has spaces, tabs, carriage returns and line
  feeds, comments from `//` to the end of the line, and comments from `/*` to the next
  `*/`; one of the second kind that is never closed breaks the reading just behind its
  opening. Arrays and objects list their items and members with commas between them and at
  most one comma behind the last; keys and strings take either kind of quotes. Once a
  bracket, a key or a point inside a number has been read there is no way back: whatever
  does not fit then breaks the whole reading.
  - `readRaw` keeps every member as it is written, so that each position is that of its
    own token; `Tree.parse` merges the members of one key afterwards.
  - An item that turns out not to be a value ends the list before the comma that leads it.
-/

import Reshape.Json.Quoted
import Reshape.Json.Tree
import Reshape.Number.Literal

namespace Reshape

/-! ## Gaps -/

def isSeparator (c : Char) : Bool := c == ' ' || c == '\t' || c == '\r' || c == '\n'

/-- Where a gap is being read: outside comments, in a line comment, or in a comment opened at a cursor. -/
inductive GapState where
  | blank
  | line
  | block (opened : Cursor)
  deriving DecidableEq, Repr

def skipFrom : GapState → List Char → Position → Outcome Unit
  | .blank, '/' :: '/' :: rest, p => skipFrom .line rest (p.past ['/', '/'])
  | .blank, '/' :: '*' :: rest, p =>
    skipFrom (.block ⟨rest, p.past ['/', '*']⟩) rest (p.past ['/', '*'])
  | .blank, c :: rest, p => if isSeparator c then skipFrom .blank rest (p.after c) else .found () ⟨c :: rest, p⟩
  | .blank, [], p => .found () ⟨[], p⟩
  | .line, c :: rest, p => skipFrom (if c == '\r' || c == '\n' then .blank else .line) rest (p.after c)
  | .line, [], p => .found () ⟨[], p⟩
  | .block _, '*' :: '/' :: rest, p => skipFrom .blank rest (p.past ['*', '/'])
  | .block opened, c :: rest, p => skipFrom (.block opened) rest (p.after c)
  | .block opened, [], _ => .broken (.unexpected .commentEnd opened)

def skipGap (c : Cursor) : Outcome Unit := skipFrom .blank c.rest c.place

/-! ## Values -/

def afterWord? : List Char → List Char → Option (List Char)
  | [], text => some text
  | w :: word, c :: text => if c = w then afterWord? word text else none
  | _ :: _, [] => none

def readKeyword (c : Cursor) : Outcome Scalar :=
  let word (spelling : List Char) (s : Scalar) : Option (Outcome Scalar) :=
    (afterWord? spelling c.rest).map fun rest => .found s (c.past spelling rest)
  ((word "true".toList (.bool true)).or ((word "false".toList (.bool false)).or (word "null".toList .null))).getD
    .absent

/-- A value that has no parts. A number that breaks off, or is beyond the finite reals, is no value. -/
def readScalar (c : Cursor) : Outcome Scalar :=
  (readString c).map .string |> fun
  | .absent =>
    match Literal.scan c.rest with
    | .broken => .broken (.unexpected .value c)
    | .none => readKeyword c
    | .literal l rest =>
      match l.number? with
      | some n => .found (.number n) (c.past l.chars rest)
      | none => .absent
  | outcome => outcome

def readChar (wanted : Char) (c : Cursor) : Outcome Unit :=
  match c.rest with
  | [] => .absent
  | d :: rest => if d = wanted then .found () ⟨rest, c.place.after d⟩ else .absent

/-- The end of a list: a gap, one comma if the list has anything in it, a gap, and the closing bracket. -/
def readEnd (nonempty : Bool) (close : Char) (wanted : Expected) (c : Cursor) : Outcome Unit :=
  (skipGap c).andThen fun _ c =>
    let c := if nonempty then match readChar ',' c with
      | .found _ next => next
      | _ => c
      else c
    (skipGap c).andThen fun _ c => (readChar close c).required wanted c

mutual

/-- The value at a cursor, within `depth` levels of recursion. -/
def readNode : Nat → Cursor → Outcome Tree
  | 0, _ => .absent
  | depth + 1, c =>
    match c.rest with
    | '\x7b' :: rest =>
      (readMembers depth ⟨rest, c.place.after '\x7b'⟩).andThen fun members last =>
        (readEnd (!members.isEmpty) '\x7d' .memberEnd last).andThen fun _ next =>
          .found ⟨c.place, .object members⟩ next
    | '[' :: rest =>
      (readItems depth ⟨rest, c.place.after '['⟩).andThen fun items last =>
        (readEnd (!items.isEmpty) ']' .itemEnd last).andThen fun _ next =>
          .found ⟨c.place, .array items⟩ next
    | _ => (readScalar c).map fun s => ⟨c.place, .scalar s⟩

/-- The items from a cursor on, none if no value begins there. -/
def readItems : Nat → Cursor → Outcome (List Tree)
  | 0, c => .found [] c
  | depth + 1, c =>
    match (skipGap c).andThen fun _ c => readNode depth c with
    | .absent => .found [] c
    | .broken f => .broken f
    | .found item next => (readMoreItems depth next).map (item :: ·)

def readMoreItems : Nat → Cursor → Outcome (List Tree)
  | 0, c => .found [] c
  | depth + 1, c =>
    match (skipGap c).andThen fun _ c => readChar ',' c with
    | .absent => .found [] c
    | .broken f => .broken f
    | .found _ behind =>
      match (skipGap behind).andThen fun _ c => readNode depth c with
      | .absent => .found [] c
      | .broken f => .broken f
      | .found item next => (readMoreItems depth next).map (item :: ·)

/-- The member at a cursor. Its key decides: behind it there must be a colon and a value. -/
def readMember : Nat → Cursor → Outcome (Member Tree)
  | 0, _ => .absent
  | depth + 1, c =>
    (skipGap c).andThen fun _ start =>
      (readString start).andThen fun key c =>
        (skipGap c).andThen fun _ c =>
          ((readChar ':' c).required .colon c).andThen fun _ c =>
            (skipGap c).andThen fun _ c =>
              ((readNode depth c).required .value c).map fun value => ⟨key, start.place, value⟩

def readMembers : Nat → Cursor → Outcome (List (Member Tree))
  | 0, c => .found [] c
  | depth + 1, c =>
    match readMember depth c with
    | .absent => .found [] c
    | .broken f => .broken f
    | .found member next => (readMoreMembers depth next).map (member :: ·)

def readMoreMembers : Nat → Cursor → Outcome (List (Member Tree))
  | 0, c => .found [] c
  | depth + 1, c =>
    match (skipGap c).andThen fun _ c => readChar ',' c with
    | .absent => .found [] c
    | .broken f => .broken f
    | .found _ behind =>
      match readMember depth behind with
      | .absent => .found [] c
      | .broken f => .broken f
      | .found member next => (readMoreMembers depth next).map (member :: ·)

end

/-- How many levels of recursion a text can need: at most three for each of its characters. -/
def readDepth (text : List Char) : Nat := 3 * text.length + 3

/-- The document that a text spells, every member kept as it is written. -/
def readRaw (text : List Char) : Except Failure Tree :=
  let result := (skipGap (.start text)).andThen fun _ start =>
    ((readNode (readDepth text) start).required .value start).andThen fun tree c =>
      (skipGap c).andThen fun _ last => .found tree last
  match result with
  | .found tree ⟨[], _⟩ => .ok tree
  | .found _ last => .error (.trailing last)
  | .broken f => .error f
  | .absent => .error (.unexpected .value (.start text))

/-- A text without the byte order mark that may lead it. -/
def withoutMark : List Char → List Char
  | '\ufeff' :: rest => rest
  | text => text

/-- The document that a text spells, with one member for each key of an object. -/
def Tree.parse (text : String) : Except Failure Tree :=
  (readRaw (withoutMark text.toList)).map Tree.distinct

end Reshape
