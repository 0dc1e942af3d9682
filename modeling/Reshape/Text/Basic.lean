/-
  Reshape.Text.Basic — the small notations that texts are written in.

  Texts are trimmed of blanks, cut at slashes, and read for numbers in decimal and in
  hexadecimal, wherever documents, paths and file names use these.
  - `readNat?` reads a text that is nothing but digits, `readIndex?` one that may begin with
    a plus sign and must fit 64 bits, which is how element numbers are written in pointers.
  - Four hexadecimal digits name a UTF-16 unit. A unit outside the surrogates is a character
    by itself; a high surrogate followed by a low one names one character beyond the first
    plane; every other surrogate names none.
  - Pointers and file paths are cut at their slashes, empty pieces included.
  - A message names the character it stumbled on in a form that can be read there
    (`shown`): the usual short escapes, `\u{…}` with the code point in hexadecimal for a
    character that has no glyph of its own, and itself otherwise.
-/

import Reshape.Text.Unicode

namespace Reshape

def trimBlank (text : List Char) : List Char :=
  ((text.dropWhile isBlank).reverse.dropWhile isBlank).reverse

/-! ## Decimal -/

def isDigit (c : Char) : Bool := '0' ≤ c && c ≤ '9'

def digitValue (c : Char) : Nat := c.toNat - '0'.toNat

/-- The number that a run of digits writes, following `high`, the number written so far. -/
def decimalFrom (high : Nat) (digits : List Char) : Nat := digits.foldl (fun n c => 10 * n + digitValue c) high

def decimal (digits : List Char) : Nat := decimalFrom 0 digits

def readNat? (text : List Char) : Option Nat :=
  if !text.isEmpty && text.all isDigit then some (decimal text) else none

/-- The number of an element: digits, with or without a plus sign, below 2^64. -/
def readIndex? (text : List Char) : Option Nat :=
  let digits := match text with
    | '+' :: rest => rest
    | _ => text
  (readNat? digits).filter (· < 18446744073709551616)

def natChars (n : Nat) : List Char := Nat.toDigits 10 n

def intChars (n : Int) : List Char := if n < 0 then '-' :: natChars n.natAbs else natChars n.natAbs

/-! ## Hexadecimal -/

def hexDigit? (c : Char) : Option Nat :=
  if '0' ≤ c ∧ c ≤ '9' then some (c.toNat - '0'.toNat)
  else if 'a' ≤ c ∧ c ≤ 'f' then some (c.toNat - 'a'.toNat + 10)
  else if 'A' ≤ c ∧ c ≤ 'F' then some (c.toNat - 'A'.toNat + 10)
  else none

def hexQuad? (a b c d : Char) : Option Nat := do
  return (((← hexDigit? a) * 16 + (← hexDigit? b)) * 16 + (← hexDigit? c)) * 16 + (← hexDigit? d)

def isHighSurrogate (unit : Nat) : Bool := 0xD800 ≤ unit && unit < 0xDC00

def isLowSurrogate (unit : Nat) : Bool := 0xDC00 ≤ unit && unit < 0xE000

def joinSurrogates (high low : Nat) : Nat := 0x10000 + (high - 0xD800) * 0x400 + (low - 0xDC00)

def scalar? (code : Nat) : Option Char := if code.isValidChar then some (Char.ofNat code) else none

theorem hexDigit?_lt {c : Char} {n : Nat} (h : hexDigit? c = some n) : n < 16 := by
  have nat_le (x y : Char) : x ≤ y ↔ x.toNat ≤ y.toNat := Iff.rfl
  simp only [hexDigit?, nat_le] at h
  have e0 : '0'.toNat = 48 := rfl
  have e9 : '9'.toNat = 57 := rfl
  have ea : 'a'.toNat = 97 := rfl
  have ef : 'f'.toNat = 102 := rfl
  have eA : 'A'.toNat = 65 := rfl
  have eF : 'F'.toNat = 70 := rfl
  simp only [e0, e9, ea, ef, eA, eF] at h
  split at h
  · cases h; omega
  · split at h
    · cases h; omega
    · split at h
      · cases h; omega
      · cases h

/-! ## Slashes -/

/-- The pieces of a text between its slashes: one more than it has slashes. -/
def pieces : List Char → List (List Char)
  | [] => [[]]
  | c :: rest =>
    if c = '/' then [] :: pieces rest
    else match pieces rest with
      | [] => [[c]]
      | piece :: more => (c :: piece) :: more

theorem pieces_ne_nil (text : List Char) : pieces text ≠ [] := by
  cases text with
  | nil => simp [pieces]
  | cons c rest =>
    simp only [pieces]
    split
    · simp
    · split <;> simp

/-! ## Characters in messages -/

def shortEscape? : Char → Option Char
  | '\x00' => some '0'
  | '\t' => some 't'
  | '\n' => some 'n'
  | '\r' => some 'r'
  | '"' => some '"'
  | '\'' => some '\''
  | '\\' => some '\\'
  | _ => none

def shown (c : Char) : String :=
  match shortEscape? c with
  | some letter => String.ofList ['\\', letter]
  | none =>
    if isGlyphless c then
      String.ofList (['\\', 'u', '\x7b'] ++ Nat.toDigits 16 c.toNat ++ ['\x7d'])
    else c.toString

end Reshape
