/-
  Reshape.Json.Interchange — values from the JSON that programs exchange.

  Here a text is one value between blanks: no comments, no comma behind the last item or
  member, strings between double quotes. Numbers are read by scaling, as the data of other
  programs is. What is read is a plain value without positions; `Document.ofValue` makes a
  document of it.
-/

import Reshape.Json.Read
import Reshape.Number.Literal

namespace Reshape

namespace Interchange

def skipBlanks (text : List Char) : List Char := text.dropWhile isSeparator

def readScalar? (text : List Char) : Option (Scalar × List Char) :=
  match Literal.scan text with
  | .literal l rest => l.scaledNumber?.map fun n => (.number n, rest)
  | .broken => none
  | .none =>
    let found := match text with
      | '"' :: _ => (readString (.start text)).map Scalar.string
      | _ => readKeyword (.start text)
    match found with
    | .found s next => some (s, next.rest)
    | _ => none

mutual

/-- The value behind blanks at the start of a text, within `depth` levels of recursion. -/
def readValue? : Nat → List Char → Option (Value × List Char)
  | 0, _ => none
  | depth + 1, text =>
    match skipBlanks text with
    | '[' :: rest =>
      match skipBlanks rest with
      | ']' :: rest => some (.array [], rest)
      | rest => (readItems? depth rest).map fun (items, rest) => (.array items, rest)
    | '\x7b' :: rest =>
      match skipBlanks rest with
      | '\x7d' :: rest => some (.object [], rest)
      | rest => (readMembers? depth rest).map fun (members, rest) => (.object members, rest)
    | rest => (readScalar? rest).map fun (s, rest) => (.scalar s, rest)

def readItems? : Nat → List Char → Option (List Value × List Char)
  | 0, _ => none
  | depth + 1, text => do
    let (item, rest) ← readValue? depth text
    match skipBlanks rest with
    | ',' :: rest => (readItems? depth rest).map fun (items, rest) => (item :: items, rest)
    | ']' :: rest => some ([item], rest)
    | _ => none

def readMembers? : Nat → List Char → Option (List (String × Value) × List Char)
  | 0, _ => none
  | depth + 1, text =>
    match readString (.start (skipBlanks text)) with
    | .found key next =>
      match skipBlanks next.rest with
      | ':' :: rest => do
        let (value, rest) ← readValue? depth rest
        match skipBlanks rest with
        | ',' :: rest => (readMembers? depth rest).map fun (members, rest) => ((key, value) :: members, rest)
        | '\x7d' :: rest => some ([(key, value)], rest)
        | _ => none
      | _ => none
    | _ => none

end

end Interchange

/-- The value that a text spells in the JSON that programs exchange. -/
def Value.ofText? (text : String) : Option Value :=
  let chars := text.toList
  match Interchange.readValue? (readDepth chars) chars with
  | some (v, rest) => if (Interchange.skipBlanks rest).isEmpty then some v else none
  | none => none

end Reshape
