/-
  Reshape.Number.Literal — numbers as they are spelled in a text.

  A literal is an optional minus sign, a whole part (a zero alone, or digits), an optional
  fraction and an optional exponent. The reader takes the longest literal at the start of
  a text; a point or an exponent mark without a digit behind it spoils the literal.
  - `Literal.chars` is the spelling a literal was read from.
  - A literal without fraction and exponent is an integer while it fits 64 bits; any other
    is the nearest real, and one beyond the finite reals is no number (`number?`). Documents
    are read this way.
  - Paths, and the data that other programs hand over, are read by scaling (`scaledNumber?`).
    The leading digits, as many as fit 64 bits, are taken for a whole number and rounded; the
    product or quotient with a power of ten, rounded before, is rounded again. Digits that do
    not fit count as places only. So the result can be a neighbour of the nearest number:
    `9007199254740993.0` is read as 9007199254740994, and `1e-23` as the number after the
    nearest one.
-/

import Reshape.Number.Basic

namespace Reshape

structure Exponent where
  mark : Char
  sign : Option Char
  digits : List Char
  deriving DecidableEq, Repr

/-- The spelling of a number. An absent fraction has no digits. -/
structure Literal where
  negative : Bool
  whole : List Char
  fraction : List Char
  exponent : Option Exponent
  deriving DecidableEq, Repr

inductive LiteralScan where
  | literal (l : Literal) (rest : List Char)
  /-- The text does not begin with a number. -/
  | none
  /-- The number breaks off behind its point or exponent mark. -/
  | broken
  deriving DecidableEq, Repr

namespace Literal

def exponentChars : Option Exponent → List Char
  | none => []
  | some ⟨mark, sign, digits⟩ => mark :: sign.toList ++ digits

def chars (l : Literal) : List Char :=
  (if l.negative then ['-'] else []) ++ l.whole ++ (if l.fraction.isEmpty then [] else '.' :: l.fraction) ++
    exponentChars l.exponent

def power : Option Exponent → Int
  | none => 0
  | some e => if e.sign = some '-' then -(decimal e.digits : Int) else decimal e.digits

/-- Whether the literal is spelled as an integer. -/
def isWhole (l : Literal) : Bool := l.fraction.isEmpty && l.exponent.isNone

def real? (l : Literal) : Option Binary64 :=
  Binary64.ofDecimal? l.negative (decimal (l.whole ++ l.fraction)) (power l.exponent - l.fraction.length)

def integer? (l : Literal) : Option Integer :=
  Integer.ofInt? (if l.negative then -(decimal l.whole : Int) else decimal l.whole)

def number? (l : Literal) : Option Number :=
  match l.isWhole, l.integer? with
  | true, some n => some (.integer n)
  | _, _ => l.real?.map .real

def scanSign : List Char → Bool × List Char
  | '-' :: rest => (true, rest)
  | text => (false, text)

/-- The whole part: a zero alone, or a run of digits that begins with another. -/
def scanWhole : List Char → List Char × List Char
  | '0' :: rest => (['0'], rest)
  | text => (text.takeWhile isDigit, text.dropWhile isDigit)

/-- The fraction, empty if there is no point; nothing if the point has no digit behind it. -/
def scanFraction? : List Char → Option (List Char × List Char)
  | '.' :: rest =>
    let digits := rest.takeWhile isDigit
    if digits.isEmpty then none else some (digits, rest.dropWhile isDigit)
  | text => some ([], text)

def scanExponentSign : List Char → Option Char × List Char
  | '+' :: rest => (some '+', rest)
  | '-' :: rest => (some '-', rest)
  | text => (none, text)

/-- The exponent; nothing if its mark has no digit behind it. -/
def scanExponent? : List Char → Option (Option Exponent × List Char)
  | [] => some (none, [])
  | c :: rest =>
    if c = 'e' ∨ c = 'E' then
      let (sign, digits) := scanExponentSign rest
      if (digits.takeWhile isDigit).isEmpty then none
      else some (some ⟨c, sign, digits.takeWhile isDigit⟩, digits.dropWhile isDigit)
    else some (none, c :: rest)

/-- The longest literal at the start of a text. -/
def scan (text : List Char) : LiteralScan :=
  let (negative, text) := scanSign text
  let (whole, text) := scanWhole text
  if whole.isEmpty then .none
  else
    match scanFraction? text with
    | none => .broken
    | some (fraction, text) =>
      match scanExponent? text with
      | none => .broken
      | some (exponent, rest) => .literal ⟨negative, whole, fraction, exponent⟩ rest

end Literal

/-! ## By scaling -/

namespace Binary64

def tenPower (n : Nat) : Nat := roundRatio (tenTo n) 1

/-- The magnitude nearest to the product of a magnitude and `10^n`, the power rounded first. -/
def timesTen (magnitude n : Nat) : Nat := roundRatio (units magnitude * units (tenPower n)) (twoTo 2148)

def overTen (magnitude n : Nat) : Nat := roundRatio (units magnitude) (units (tenPower n))

def greatestTen : Nat := 308

/-- A magnitude divided by `10^n`, in steps of at most `10^308`. -/
def shrink (magnitude n : Nat) : Nat :=
  if n ≤ greatestTen then overTen magnitude n
  else if magnitude = 0 then 0
  else shrink (overTen magnitude greatestTen) (n - greatestTen)
termination_by n
decreasing_by simp only [greatestTen] at *; omega

def scale (magnitude : Nat) (exponent : Int) : Nat :=
  if exponent < 0 then shrink magnitude exponent.natAbs
  else if exponent.natAbs ≤ greatestTen then timesTen magnitude exponent.natAbs
  else if magnitude = 0 then 0
  else firstInfinite

def ofMagnitude? (negative : Bool) (magnitude : Nat) : Option Binary64 :=
  if h : magnitude < firstInfinite then some ⟨negative, magnitude, h⟩ else none

end Binary64

namespace Literal

/-- Takes digits up behind `high`, the number read so far, while it stays below 2^64; the digits left over
    come back. -/
def takeDigits (high : Nat) : List Char → Nat × List Char
  | [] => (high, [])
  | c :: rest =>
    if 10 * high + digitValue c < 18446744073709551616 then takeDigits (10 * high + digitValue c) rest
    else (high, c :: rest)

def scaledReal? (l : Literal) : Option Binary64 :=
  let (high, passed) := takeDigits 0 l.whole
  let (digits, unread) := takeDigits high l.fraction
  let exponent := power l.exponent + passed.length - (l.fraction.length - unread.length)
  Binary64.ofMagnitude? l.negative (Binary64.scale (Binary64.roundRatio digits 1) exponent)

/-- The number that the literal names by scaling. A zero with a minus sign is a real, to keep its sign. -/
def scaledNumber? (l : Literal) : Option Number :=
  match l.isWhole, l.integer? with
  | true, some n => if l.negative && n.val == 0 then l.scaledReal?.map .real else some (.integer n)
  | _, _ => l.scaledReal?.map .real

end Literal

end Reshape
