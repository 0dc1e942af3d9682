/-
  Reshape.Path.Pattern — regular patterns that filters match texts against.

  A pattern is built from classes of characters and from anchors, which ask for a place, by
  sequence, choice and repetition. A text matches when what the pattern still asks for
  behind each of its characters (`derive`) finally asks for nothing (`nullable`); since
  anchors look at both sides, each step is told the character before. What is left to match
  is kept short: a branch that a choice has already is not written again (`either`), so it
  does not grow with the text.

  Patterns are spelled with literal characters, the point, classes in brackets, escapes for
  characters (`\n`, `\x41`, `\u{41}`), for kinds of characters (`\d`, `\s`, `\w` and their
  negations) and for places (`\A`, `\z`, `\b`, `\B`, `\<`, `\>`, `\b{start}` and its like), the
  anchors `^` and `$`, groups with and without `?:`, `|`, `*`, `+`, `?` and counts in
  braces, each of the four with or without a `?` behind it. Not read, and so no pattern, are
  properties (`\p`), names and flags of groups, and classes within classes with the
  operations on them; nor is a pattern whose counts unfold beyond `Pattern.room`.
-/

import Reshape.Text.Basic

namespace Reshape.Path

/-! ## Classes and places -/

inductive CharKind where
  | numeral
  | blank
  | word
  deriving DecidableEq, Repr

def CharKind.contains : CharKind → Char → Bool
  | .numeral => isNumeral
  | .blank => isBlank
  | .word => isWordPart

inductive ClassPart where
  | range (low high : Char)
  /-- A kind of characters, or all that are not of that kind. -/
  | kind (k : CharKind) (negated : Bool)
  deriving DecidableEq, Repr

def ClassPart.contains (c : Char) : ClassPart → Bool
  | .range low high => low ≤ c && c ≤ high
  | .kind k negated => k.contains c != negated

/-- A class of characters: what its parts contain, or everything outside them. -/
structure CharClass where
  negated : Bool
  parts : List ClassPart
  deriving DecidableEq, Repr

namespace CharClass

def contains (k : CharClass) (c : Char) : Bool := k.parts.any (·.contains c) != k.negated

def all : CharClass := ⟨true, []⟩

def one (c : Char) : CharClass := ⟨false, [.range c c]⟩

/-- The class of all characters but those that end lines. -/
def point : CharClass := ⟨true, [.range '\n' '\n', .range '\r' '\r']⟩

end CharClass

/-- A place that a pattern may ask for: an end of the text, or what words make of the place. -/
inductive Anchor where
  | start
  | stop
  /-- A word begins or ends here. -/
  | edge
  /-- No word begins or ends here. -/
  | inner
  | wordStart
  | wordEnd
  /-- There is no part of a word before. -/
  | wordStartHalf
  /-- There is no part of a word behind. -/
  | wordEndHalf
  deriving DecidableEq, Repr

/-- Whether a place, told by the characters on both sides of it, is the one that is asked for. -/
def Anchor.holds (before behind : Option Char) : Anchor → Bool
  | .start => before.isNone
  | .stop => behind.isNone
  | .edge => before.any isWordPart != behind.any isWordPart
  | .inner => before.any isWordPart == behind.any isWordPart
  | .wordStart => !before.any isWordPart && behind.any isWordPart
  | .wordEnd => before.any isWordPart && !behind.any isWordPart
  | .wordStartHalf => !before.any isWordPart
  | .wordEndHalf => !behind.any isWordPart

/-! ## Patterns -/

inductive Pattern where
  | nothing
  | empty
  | char (k : CharClass)
  | place (a : Anchor)
  | seq (a b : Pattern)
  | or (a b : Pattern)
  /-- The pattern once or more. -/
  | more (a : Pattern)
  deriving DecidableEq, Repr

namespace Pattern

def many (a : Pattern) : Pattern := .or .empty (.more a)

def nullable (before behind : Option Char) : Pattern → Bool
  | .nothing => false
  | .empty => true
  | .char _ => false
  | .place a => a.holds before behind
  | .seq a b => a.nullable before behind && b.nullable before behind
  | .or a b => a.nullable before behind || b.nullable before behind
  | .more a => a.nullable before behind

/-- The branches of a choice; none of them is nothing. -/
def branches : Pattern → List Pattern
  | .nothing => []
  | .or a b => a.branches ++ b.branches
  | p => [p]

def ofBranches : List Pattern → Pattern
  | [] => .nothing
  | [p] => p
  | p :: rest => .or p (ofBranches rest)

/-- The choice of two patterns, a branch that both have written once. -/
def either (a b : Pattern) : Pattern :=
  ofBranches (a.branches ++ b.branches.filter fun p => !a.branches.contains p)

/-- One pattern and then another, written shorter where the first asks for nothing more or cannot match. -/
def followedBy : Pattern → Pattern → Pattern
  | .nothing, _ => .nothing
  | .empty, b => b
  | a, b => .seq a b

/-- What the pattern asks for behind a first character `c`, which stands behind `before`. -/
def derive (before : Option Char) (c : Char) : Pattern → Pattern
  | .nothing => .nothing
  | .empty => .nothing
  | .char k => if k.contains c then .empty else .nothing
  | .place _ => .nothing
  | .seq a b =>
    if a.nullable before (some c) then ((a.derive before c).followedBy b).either (b.derive before c)
    else (a.derive before c).followedBy b
  | .or a b => (a.derive before c).either (b.derive before c)
  | .more a => (a.derive before c).followedBy a.many

/-- Whether the rest of a text, which stands behind `before`, matches as a whole. -/
def matchesRest (before : Option Char) : List Char → Pattern → Bool
  | [], p => p.nullable before none
  | c :: rest, p => matchesRest (some c) rest (p.derive before c)

def anywhere (p : Pattern) : Pattern := .seq (many (.char .all)) (.seq p (many (.char .all)))

def matchesPart (p : Pattern) (text : List Char) : Bool := matchesRest none text p.anywhere

/-! ## Counts -/

structure Count where
  least : Nat
  most : Option Nat
  deriving DecidableEq, Repr

/-- The pattern so many times, and then another. -/
def times (p : Pattern) : Nat → Pattern → Pattern
  | 0, rest => rest
  | n + 1, rest => .seq p (p.times n rest)

def upTo (p : Pattern) : Nat → Pattern
  | 0 => .empty
  | n + 1 => .or (.seq p (p.upTo n)) .empty

def repeated (p : Pattern) : Count → Pattern
  | ⟨0, none⟩ => p.many
  | ⟨n + 1, none⟩ => p.times n (.more p)
  | ⟨n, some most⟩ => p.times n (p.upTo (most - n))

def size : Pattern → Nat
  | .seq a b => a.size + b.size + 1
  | .or a b => a.size + b.size + 1
  | .more a => a.size + 1
  | _ => 1

/-- How large a repeated pattern may become. -/
def room : Nat := 100000

def repeated? (p : Pattern) (count : Count) : Option Pattern :=
  if (max count.least (count.most.getD 0) + 1) * (p.size + 2) ≤ room then some (p.repeated count) else none

/-! ## Reading escapes -/

inductive Escape where
  | char (c : Char)
  | kind (k : CharKind) (negated : Bool)
  | place (a : Anchor)
  deriving DecidableEq, Repr

def hexNumber? (digits : List Char) : Option Nat :=
  digits.foldlM (fun n c => (hexDigit? c).map (16 * n + ·)) 0

/-- The character whose code is written in braces or in exactly `count` digits. -/
def readCode? (count : Nat) : List Char → Option (Char × List Char)
  | '\x7b' :: rest =>
    match rest.takeWhile (· != '\x7d'), rest.dropWhile (· != '\x7d') with
    | c :: digits, '\x7d' :: behind => ((hexNumber? (c :: digits)).bind scalar?).map fun c => (c, behind)
    | _, _ => none
  | text =>
    if text.length < count then none
    else ((hexNumber? (text.take count)).bind scalar?).map fun c => (c, text.drop count)

def namedBoundaries : List (List Char × Anchor) :=
  [("start".toList, .wordStart), ("end".toList, .wordEnd), ("start-half".toList, .wordStartHalf),
   ("end-half".toList, .wordEndHalf)]

def isNamePart (c : Char) : Bool := c.isAlpha || c == '-'

/-- The word boundary whose name may follow in braces; braces with a number in them are a count. -/
def readBoundary? : List Char → Option (Anchor × List Char)
  | '\x7b' :: rest =>
    match rest.takeWhile isNamePart, rest.dropWhile isNamePart with
    | [], _ => some (.edge, '\x7b' :: rest)
    | name, '\x7d' :: behind => (namedBoundaries.lookup name).map fun a => (a, behind)
    | _, _ => none
  | text => some (.edge, text)

def readEscape? : List Char → Option (Escape × List Char)
  | [] => none
  | c :: rest =>
    let char (c : Char) : Option (Escape × List Char) := some (.char c, rest)
    match c with
    | 'd' => some (.kind .numeral false, rest)
    | 'D' => some (.kind .numeral true, rest)
    | 's' => some (.kind .blank false, rest)
    | 'S' => some (.kind .blank true, rest)
    | 'w' => some (.kind .word false, rest)
    | 'W' => some (.kind .word true, rest)
    | 'A' => some (.place .start, rest)
    | 'z' => some (.place .stop, rest)
    | 'B' => some (.place .inner, rest)
    | '<' => some (.place .wordStart, rest)
    | '>' => some (.place .wordEnd, rest)
    | 'b' => (readBoundary? rest).map fun (a, rest) => (.place a, rest)
    | 'x' => (readCode? 2 rest).map fun (c, rest) => (.char c, rest)
    | 'u' => (readCode? 4 rest).map fun (c, rest) => (.char c, rest)
    | 'U' => (readCode? 8 rest).map fun (c, rest) => (.char c, rest)
    | 'n' => char '\n'
    | 'r' => char '\r'
    | 't' => char '\t'
    | 'f' => char '\x0c'
    | 'v' => char '\x0b'
    | 'a' => char '\x07'
    | _ => if c.isAlphanum || 0x80 ≤ c.toNat then none else char c

/-! ## Reading classes -/

/-- The part that an escape is of a class. A place is none. -/
def Escape.part? : Escape → Option ClassPart
  | .char c => some (.range c c)
  | .kind k negated => some (.kind k negated)
  | .place _ => none

def readItem? : List Char → Option (Escape × List Char)
  | [] => none
  | c :: rest => if c = '\\' then readEscape? rest else some (.char c, rest)

/-- A part of a class. A dash in front of the closing bracket or of another dash makes no range. -/
def readClassPart? (text : List Char) : Option (ClassPart × List Char) := do
  let (low, rest) ← readItem? text
  match rest with
  | '-' :: behind =>
    if behind.head? = some ']' ∨ behind.head? = some '-' then low.part?.map fun part => (part, rest)
    else do
      let (high, rest) ← readItem? behind
      match low, high with
      | .char low, .char high => if low ≤ high then some (.range low high, rest) else none
      | _, _ => none
  | _ => low.part?.map fun part => (part, rest)

/-- Whether a class goes on with another class or with a sign for an operation on classes. -/
def startsOperation : List Char → Bool
  | '[' :: _ => true
  | '&' :: '&' :: _ => true
  | '-' :: '-' :: _ => true
  | '~' :: '~' :: _ => true
  | _ => false

def readClassParts? : Nat → List Char → Option (List ClassPart × List Char)
  | 0, _ => none
  | fuel + 1, text =>
    match text with
    | ']' :: rest => some ([], rest)
    | _ =>
      if startsOperation text then none
      else do
        let (part, rest) ← readClassPart? text
        let (parts, rest) ← readClassParts? fuel rest
        some (part :: parts, rest)

/-- A class whose opening bracket has been read. Dashes at its beginning stand for themselves, and so does a
    closing bracket that is the first of all. -/
def readClass? (fuel : Nat) (negated : Bool) (text : List Char) : Option (CharClass × List Char) :=
  let dashes := (text.takeWhile (· == '-')).map fun c => ClassPart.range c c
  let (first, rest) := match dashes, text.dropWhile (· == '-') with
    | [], ']' :: rest => ([.range ']' ']'], rest)
    | _, rest => (dashes, rest)
  (readClassParts? fuel rest).map fun (parts, rest) => (⟨negated, first ++ parts⟩, rest)

/-! ## Reading patterns -/

/-- A number between braces, with the blanks around it. -/
def readNumber? (text : List Char) : Option (Nat × List Char) :=
  let text := text.dropWhile isBlank
  let digits := text.takeWhile isDigit
  if digits.isEmpty then none else some (decimal digits, (text.dropWhile isDigit).dropWhile isBlank)

def readBraces? (text : List Char) : Option (Count × List Char) := do
  let (least, rest) ← readNumber? text
  match rest with
  | '\x7d' :: rest => some (⟨least, some least⟩, rest)
  | ',' :: '\x7d' :: rest => some (⟨least, none⟩, rest)
  | ',' :: rest => do
    let (most, rest) ← readNumber? rest
    match rest with
    | '\x7d' :: rest => if least ≤ most then some (⟨least, some most⟩, rest) else none
    | _ => none
  | _ => none

/-- A text without the question mark that may lead it. Behind a count it prefers shorter matches, which does not
    change whether there is one. -/
def withoutPreference : List Char → List Char
  | '?' :: rest => rest
  | text => text

/-- The count written at the start of a text, if there is one; no reading if it is not finished. -/
def readCount? : List Char → Option (Option Count × List Char)
  | '*' :: rest => some (some ⟨0, none⟩, withoutPreference rest)
  | '+' :: rest => some (some ⟨1, none⟩, withoutPreference rest)
  | '?' :: rest => some (some ⟨0, some 1⟩, withoutPreference rest)
  | '\x7b' :: rest => (readBraces? rest).map fun (count, rest) => (some count, withoutPreference rest)
  | text => some (none, text)

def readCounts? : Nat → Pattern → List Char → Option (Pattern × List Char)
  | 0, _, _ => none
  | fuel + 1, p, text => do
    let (count, rest) ← readCount? text
    match count with
    | none => some (p, rest)
    | some count => do readCounts? fuel (← p.repeated? count) rest

def Escape.pattern : Escape → Pattern
  | .char c => .char (.one c)
  | .kind k negated => .char ⟨false, [.kind k negated]⟩
  | .place a => .place a

/-- A text without the sign that may lead a group, by which it is not numbered. -/
def withoutGroupSign : List Char → List Char
  | '?' :: ':' :: rest => rest
  | text => text

def isOperator (c : Char) : Bool := ['*', '+', '?', '|', '(', ')', '[', '\x7b', '\\'].contains c

mutual

def readChoice? : Nat → List Char → Option (Pattern × List Char)
  | 0, _ => none
  | fuel + 1, text => do
    let (p, rest) ← readSequence? fuel text
    match rest with
    | '|' :: rest => do
      let (q, rest) ← readChoice? fuel rest
      some (.or p q, rest)
    | _ => some (p, rest)

def readSequence? : Nat → List Char → Option (Pattern × List Char)
  | 0, _ => none
  | _ + 1, [] => some (.empty, [])
  | fuel + 1, c :: rest =>
    if c = '|' ∨ c = ')' then some (.empty, c :: rest)
    else do
      let (p, rest) ← readPart? fuel (c :: rest)
      let (p, rest) ← readCounts? fuel p rest
      let (q, rest) ← readSequence? fuel rest
      some (.seq p q, rest)

def readPart? : Nat → List Char → Option (Pattern × List Char)
  | 0, _ => none
  | fuel + 1, '(' :: rest => do
    let (p, rest) ← readChoice? fuel (withoutGroupSign rest)
    match rest with
    | ')' :: rest => some (p, rest)
    | _ => none
  | fuel + 1, '[' :: '^' :: rest => (readClass? fuel true rest).map fun (k, rest) => (.char k, rest)
  | fuel + 1, '[' :: rest => (readClass? fuel false rest).map fun (k, rest) => (.char k, rest)
  | _ + 1, '\\' :: rest => (readEscape? rest).map fun (e, rest) => (e.pattern, rest)
  | _ + 1, '.' :: rest => some (.char .point, rest)
  | _ + 1, '^' :: rest => some (.place .start, rest)
  | _ + 1, '$' :: rest => some (.place .stop, rest)
  | _ + 1, c :: rest => if isOperator c then none else some (.char (.one c), rest)
  | _ + 1, [] => none

end

def read? (text : List Char) : Option Pattern :=
  match readChoice? (3 * text.length + 9) text with
  | some (p, []) => some p
  | _ => none

end Pattern

end Reshape.Path
