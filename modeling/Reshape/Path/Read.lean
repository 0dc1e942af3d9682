/-
  Reshape.Path.Read — queries from text.

  A query is `$` and segments: `.name`, `.*`, a bracketed list of selectors, and each of
  them behind `..` where it descends. Blanks may stand before a child segment, inside
  brackets and parentheses, and around operators, but not behind a dot. The reading stops
  at the first text that is no segment; a query must end there.
-/

import Reshape.Path.Query
import Reshape.Text.Basic
import Reshape.Number.Literal

namespace Reshape.Path

def isGap (c : Char) : Bool := c == ' ' || c == '\t' || c == '\n' || c == '\r'

def skipBlanks (text : List Char) : List Char := text.dropWhile isGap

def after? : List Char → List Char → Option (List Char)
  | [], text => some text
  | w :: word, c :: text => if c = w then after? word text else none
  | _ :: _, [] => none

/-- The text behind a blank-free `word` that blanks may lead. -/
def afterBlanks? (word text : List Char) : Option (List Char) := after? word (skipBlanks text)

/-! ## Names, numbers and strings -/

def startsName (c : Char) : Bool := ('a' ≤ c && c ≤ 'z') || ('A' ≤ c && c ≤ 'Z') || c == '_' || 0x80 ≤ c.toNat

def readName? : List Char → Option (String × List Char)
  | [] => none
  | c :: rest =>
    let inside (c : Char) : Bool := startsName c || isDigit c
    if startsName c then some (String.ofList (c :: rest.takeWhile inside), rest.dropWhile inside) else none

/-- The greatest integer of an index or slice, up to its sign: 2^53 - 1. -/
def greatestIndex : Nat := 9007199254740991

/-- The integer at the start of a text: no leading zero, no negative zero. -/
def readInt? (text : List Char) : Option (Int × List Char) :=
  let (negative, digits) := Literal.scanSign text
  let (whole, rest) := Literal.scanWhole digits
  if whole.isEmpty || (negative && whole == ['0']) || greatestIndex < decimal whole then none
  else some (if negative then -(decimal whole : Int) else decimal whole, rest)

/-- The character that a one-letter escape stands for; of the quotes only the enclosing one is escaped. -/
def letterEscape? (quote letter : Char) : Option Char :=
  if letter = quote then some quote
  else match letter with
    | 'b' => some '\x08'
    | 't' => some '\t'
    | 'n' => some '\n'
    | 'f' => some '\x0c'
    | 'r' => some '\r'
    | '/' => some '/'
    | '\\' => some '\\'
    | _ => none

/-- Whether an escape that begins with these digits is the first of a surrogate pair: it is spelled with capital
    letters. Spelled otherwise, a surrogate has no partner and names no character. -/
def opensPair (first second : Char) : Bool := first == 'D' && ['8', '9', 'A', 'B'].contains second

def readQuad? : List Char → Option ((Bool × Nat) × List Char)
  | a :: b :: d :: e :: rest => (hexQuad? a b d e).map fun unit => ((opensPair a b, unit), rest)
  | _ => none

def readPartner? (high : Nat) : List Char → Option (Char × List Char)
  | '\\' :: 'u' :: text =>
    match readQuad? text with
    | some ((_, low), rest) =>
      if isLowSurrogate low then (scalar? (joinSurrogates high low)).map fun c => (c, rest) else none
    | none => none
  | _ => none

def readEscape? (quote : Char) : List Char → Option (Char × List Char)
  | 'u' :: text =>
    match readQuad? text with
    | some ((true, unit), rest) => readPartner? unit rest
    | some ((false, unit), rest) => (scalar? unit).map fun c => (c, rest)
    | none => none
  | letter :: rest => (letterEscape? quote letter).map fun c => (c, rest)
  | [] => none

theorem readQuad?_shorter {text rest : List Char} {unit : Bool × Nat} (h : readQuad? text = some (unit, rest)) :
    rest.length < text.length := by
  unfold readQuad? at h
  split at h
  · obtain ⟨u, -, e⟩ := Option.map_eq_some_iff.mp h
    obtain ⟨-, rfl⟩ := Prod.mk.inj e
    simp only [List.length_cons]
    omega
  · cases h

theorem readPartner?_shorter {high : Nat} {text rest : List Char} {c : Char}
    (h : readPartner? high text = some (c, rest)) : rest.length < text.length := by
  unfold readPartner? at h
  split at h
  · split at h
    · rename_i hq
      split at h
      · obtain ⟨d, -, e⟩ := Option.map_eq_some_iff.mp h
        obtain ⟨-, rfl⟩ := Prod.mk.inj e
        have := readQuad?_shorter hq
        simp only [List.length_cons]
        omega
      · cases h
    · cases h
  · cases h

theorem readEscape?_shorter {quote : Char} {text rest : List Char} {c : Char}
    (h : readEscape? quote text = some (c, rest)) : rest.length < text.length := by
  unfold readEscape? at h
  split at h
  · rw [List.length_cons]
    split at h
    · rename_i hq
      have := readQuad?_shorter hq
      have := readPartner?_shorter h
      omega
    · rename_i hq
      obtain ⟨d, -, e⟩ := Option.map_eq_some_iff.mp h
      obtain ⟨-, rfl⟩ := Prod.mk.inj e
      have := readQuad?_shorter hq
      omega
    · cases h
  · obtain ⟨d, -, e⟩ := Option.map_eq_some_iff.mp h
    obtain ⟨-, rfl⟩ := Prod.mk.inj e
    exact Nat.lt_succ_self _
  · cases h

/-- The characters of a string, its opening quote already read. Controls do not stand for themselves. -/
def readBody? (quote : Char) (text : List Char) : Option (List Char × List Char) :=
  match text with
  | [] => none
  | c :: text =>
    if c = quote then some ([], text)
    else if c = '\\' then
      match _he : readEscape? quote text with
      | some (char, rest) => (readBody? quote rest).map fun (cs, rest) => (char :: cs, rest)
      | none => none
    else if c.toNat < 0x20 then none
    else (readBody? quote text).map fun (cs, rest) => (c :: cs, rest)
termination_by text.length
decreasing_by
  · exact Nat.lt_succ_of_lt (readEscape?_shorter _he)
  · exact Nat.lt_succ_self _

def readQuoted? : List Char → Option (String × List Char)
  | '"' :: rest => (readBody? '"' rest).map fun (cs, rest) => (String.ofList cs, rest)
  | '\'' :: rest => (readBody? '\'' rest).map fun (cs, rest) => (String.ofList cs, rest)
  | _ => none

def readScalar? (text : List Char) : Option (Scalar × List Char) :=
  match readQuoted? text with
  | some (s, rest) => some (.string s, rest)
  | none =>
    match after? "true".toList text, after? "false".toList text, after? "null".toList text with
    | some rest, _, _ => some (.bool true, rest)
    | _, some rest, _ => some (.bool false, rest)
    | _, _, some rest => some (.null, rest)
    | none, none, none =>
      match Literal.scan text with
      | .literal l rest => l.scaledNumber?.map fun n => (.number n, rest)
      | _ => none

def readComparison? : List Char → Option (Comparison × List Char)
  | '=' :: '=' :: rest => some (.eq, rest)
  | '!' :: '=' :: rest => some (.ne, rest)
  | '<' :: '=' :: rest => some (.le, rest)
  | '>' :: '=' :: rest => some (.ge, rest)
  | '<' :: rest => some (.lt, rest)
  | '>' :: rest => some (.gt, rest)
  | _ => none

def readOrigin? : List Char → Option (Origin × List Char)
  | '$' :: rest => some (.root, rest)
  | '@' :: rest => some (.here, rest)
  | _ => none

def readOptional (text : List Char) : Option Int × List Char :=
  match readInt? text with
  | some (i, rest) => (some i, rest)
  | none => (none, text)

/-- The integer behind a colon, if there is one. Blanks that lead to none are left. -/
def readBound (text : List Char) : Option Int × List Char :=
  match readInt? (skipBlanks text) with
  | some (i, rest) => (some i, rest)
  | none => (none, text)

def readIndices? (text : List Char) : Option (Selector × List Char) :=
  let (start, rest) := readOptional text
  match afterBlanks? [':'] rest with
  | none => start.map fun i => (.index i, rest)
  | some rest =>
    let (stop, rest) := readBound rest
    match afterBlanks? [':'] rest with
    | none => some (.slice start stop 1, rest)
    | some rest =>
      let (step, rest) := readBound rest
      some (.slice start stop (step.getD 1), rest)

/-! ## Segments, selectors and tests -/

mutual

def readSegments : Nat → List Char → List Segment × List Char
  | 0, text => ([], text)
  | fuel + 1, text =>
    match readSegment? fuel text with
    | none => ([], text)
    | some (segment, rest) =>
      let (segments, rest) := readSegments fuel rest
      (segment :: segments, rest)

def readSegment? : Nat → List Char → Option (Segment × List Char)
  | 0, _ => none
  | fuel + 1, '.' :: '.' :: text =>
    match text with
    | '*' :: rest => some (.mk true [.wildcard], rest)
    | '[' :: rest => (readSelectors? fuel rest).map fun (selectors, rest) => (.mk true selectors, rest)
    | _ => (readName? text).map fun (name, rest) => (.mk true [.name name], rest)
  | fuel + 1, text =>
    match skipBlanks text with
    | '.' :: '*' :: rest => some (.mk false [.wildcard], rest)
    | '.' :: rest => (readName? rest).map fun (name, rest) => (.mk false [.name name], rest)
    | '[' :: rest => (readSelectors? fuel rest).map fun (selectors, rest) => (.mk false selectors, rest)
    | _ => none

def readSelectors? : Nat → List Char → Option (List Selector × List Char)
  | 0, _ => none
  | fuel + 1, text =>
    match readSelector? fuel (skipBlanks text) with
    | none => none
    | some (selector, rest) =>
      match skipBlanks rest with
      | ']' :: rest => some ([selector], rest)
      | ',' :: rest => (readSelectors? fuel rest).map fun (selectors, rest) => (selector :: selectors, rest)
      | _ => none

def readSelector? : Nat → List Char → Option (Selector × List Char)
  | 0, _ => none
  | _ + 1, '*' :: rest => some (.wildcard, rest)
  | fuel + 1, '?' :: rest => (readOr? fuel (skipBlanks rest)).map fun (test, rest) => (.filter test, rest)
  | _ + 1, text =>
    match readQuoted? text with
    | some (name, rest) => some (.name name, rest)
    | none => readIndices? text

def readQuery? : Nat → List Char → Option ((Origin × List Segment) × List Char)
  | 0, _ => none
  | fuel + 1, text =>
    (readOrigin? text).map fun (origin, rest) =>
      let (segments, rest) := readSegments fuel rest
      ((origin, segments), rest)

def readOr? : Nat → List Char → Option (Test × List Char)
  | 0, _ => none
  | fuel + 1, text =>
    match readAnd? fuel text with
    | none => none
    | some (test, rest) => some (readMoreOr fuel test rest)

def readMoreOr : Nat → Test → List Char → Test × List Char
  | 0, test, text => (test, text)
  | fuel + 1, test, text =>
    match (afterBlanks? ['|', '|'] text).bind fun rest => readAnd? fuel (skipBlanks rest) with
    | none => (test, text)
    | some (other, rest) => readMoreOr fuel (.or test other) rest

def readAnd? : Nat → List Char → Option (Test × List Char)
  | 0, _ => none
  | fuel + 1, text =>
    match readTest? fuel text with
    | none => none
    | some (test, rest) => some (readMoreAnd fuel test rest)

def readMoreAnd : Nat → Test → List Char → Test × List Char
  | 0, test, text => (test, text)
  | fuel + 1, test, text =>
    match (afterBlanks? ['&', '&'] text).bind fun rest => readTest? fuel (skipBlanks rest) with
    | none => (test, text)
    | some (other, rest) => readMoreAnd fuel (.and test other) rest

/-- One test: in parentheses, negated, a comparison, or one that stands alone. Only the latter and a test in
    parentheses can be negated. A query is read once, whether it is compared or stands alone. -/
def readTest? : Nat → List Char → Option (Test × List Char)
  | 0, _ => none
  | fuel + 1, '(' :: rest => readGroup? fuel rest
  | fuel + 1, '!' :: text =>
    (match skipBlanks text with
      | '(' :: rest => readGroup? fuel rest
      | rest => readAlone? fuel rest).map fun (test, rest) => (.not test, rest)
  | fuel + 1, text =>
    match readQuery? fuel text with
    | some ((origin, segments), rest) =>
      (((singularSteps? segments).bind fun steps => readAgainst? fuel (.singular ⟨origin, steps⟩) rest)).or
        (some (.exists_ origin segments, rest))
    | none => (readCompared? fuel text).or (readAlone? fuel text)

def readGroup? : Nat → List Char → Option (Test × List Char)
  | 0, _ => none
  | fuel + 1, text =>
    match readOr? fuel (skipBlanks text) with
    | none => none
    | some (test, rest) => (afterBlanks? [')'] rest).map fun rest => (test, rest)

def readCompared? : Nat → List Char → Option (Test × List Char)
  | 0, _ => none
  | fuel + 1, text =>
    match readOperand? fuel text with
    | none => none
    | some (left, rest) => readAgainst? fuel left rest

def readAgainst? : Nat → Operand → List Char → Option (Test × List Char)
  | 0, _, _ => none
  | fuel + 1, left, text =>
    match readComparison? (skipBlanks text) with
    | none => none
    | some (how, rest) =>
      (readOperand? fuel (skipBlanks rest)).map fun (right, rest) => (.compare how left right, rest)

def readAlone? : Nat → List Char → Option (Test × List Char)
  | 0, _ => none
  | fuel + 1, text =>
    match readQuery? fuel text with
    | some ((origin, segments), rest) => some (.exists_ origin segments, rest)
    | none =>
      match after? "match(".toList text, after? "search(".toList text with
      | some rest, _ => readMatch? fuel .whole rest
      | none, some rest => readMatch? fuel .part rest
      | none, none => none

def readMatch? : Nat → Extent → List Char → Option (Test × List Char)
  | 0, _, _ => none
  | fuel + 1, extent, text =>
    match readOperand? fuel (skipBlanks text) with
    | none => none
    | some (subject, rest) =>
      match (afterBlanks? [','] rest).bind fun rest => readOperand? fuel (skipBlanks rest) with
      | none => none
      | some (pattern, rest) =>
        (afterBlanks? [')'] rest).map fun rest => (.matches_ extent subject pattern, rest)

def readOperand? : Nat → List Char → Option (Operand × List Char)
  | 0, _ => none
  | fuel + 1, text =>
    match readScalar? text with
    | some (s, rest) => some (.literal s, rest)
    | none =>
      match readQuery? fuel text with
      | some ((origin, segments), rest) =>
        (singularSteps? segments).map fun steps => (.singular ⟨origin, steps⟩, rest)
      | none =>
        match after? "length(".toList text, after? "count(".toList text, after? "value(".toList text with
        | some rest, _, _ =>
          match readOperand? fuel (skipBlanks rest) with
          | none => none
          | some (operand, rest) => (afterBlanks? [')'] rest).map fun rest => (.length operand, rest)
        | _, some rest, _ =>
          match readNodes? fuel (skipBlanks rest) with
          | none => none
          | some (nodes, rest) => (afterBlanks? [')'] rest).map fun rest => (.count nodes, rest)
        | _, _, some rest =>
          match readNodes? fuel (skipBlanks rest) with
          | none => none
          | some (nodes, rest) => (afterBlanks? [')'] rest).map fun rest => (.only nodes, rest)
        | none, none, none => none

def readNodes? : Nat → List Char → Option (Nodes × List Char)
  | 0, _ => none
  | fuel + 1, text =>
    (readQuery? fuel text).map fun ((origin, segments), rest) =>
      match singularSteps? segments with
      | some steps => (.singular ⟨origin, steps⟩, rest)
      | none => (.query origin segments, rest)

end

/-- Why a text is no query: at this many characters from its start no segment begins. -/
structure Malformed where
  offset : Nat
  deriving DecidableEq, Repr

def Malformed.detail (m : Malformed) : String := "at position " ++ m.offset.repr ++ ", expected a path segment"

/-- How many levels of recursion a text can need: at most twelve for each of its characters. -/
def readLevels (text : List Char) : Nat := 12 * text.length + 12

def Query.read (text : List Char) : Except Malformed Query :=
  match text with
  | '$' :: rest =>
    match readSegments (readLevels rest) rest with
    | (segments, []) => .ok segments
    | (_, left) => .error ⟨text.length - left.length⟩
  | _ => .error ⟨0⟩

end Reshape.Path
