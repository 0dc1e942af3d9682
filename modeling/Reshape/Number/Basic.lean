/-
  Reshape.Number — the numbers of a JSON document and how they are written.

  A number is an integer that fits 64 bits, signed or not, or a finite real. The two are
  kept apart: `3` and `3.0` are different numbers of equal value.
  - A real is written with the fewest digits that read back. With leading digit at
    10^e it is written out plainly for -5 ≤ e ≤ 15, always with a point, and otherwise
    with an exponent that has a sign when it is positive (`1e+16`, `1.5e-7`).
-/

import Reshape.Number.Binary64
import Reshape.Text.Basic

namespace Reshape

/-- An integer that fits 64 bits, signed or unsigned: from -2^63 up to but not including 2^64. -/
structure Integer where
  val : Int
  lower : -9223372036854775808 ≤ val
  upper : val < 18446744073709551616
  deriving DecidableEq, Repr

def Integer.ofInt? (n : Int) : Option Integer :=
  if h : -9223372036854775808 ≤ n ∧ n < 18446744073709551616 then some ⟨n, h.1, h.2⟩ else none

inductive Number where
  | integer (n : Integer)
  | real (x : Binary64)
  deriving DecidableEq, Repr

namespace Number

/-- The least and the greatest power of ten at the leading digit that is written out plainly. -/
def leastPlain : Int := -5
def greatestPlain : Int := 15

/-- The sign and digits of an exponent: a plus sign is written. -/
def exponentChars (e : Int) : List Char := (if e < 0 then '-' else '+') :: natChars e.natAbs

/-- The digits with a point behind the first `whole` of them, zeros filling both sides. -/
def plainChars (digits : List Char) (e : Int) : List Char :=
  if e < 0 then
    '0' :: '.' :: (List.replicate ((-e).toNat - 1) '0' ++ digits)
  else
    let whole := e.toNat + 1
    if digits.length ≤ whole then digits ++ List.replicate (whole - digits.length) '0' ++ ['.', '0']
    else digits.take whole ++ '.' :: digits.drop whole

def scientificChars (digits : List Char) (e : Int) : List Char :=
  let mantissa := match digits with
    | [] => []
    | [d] => [d]
    | d :: rest => d :: '.' :: rest
  mantissa ++ 'e' :: exponentChars e

/-- The digits without the zeros at their end, the first digit kept. -/
def dropTrailingZeros : List Char → List Char
  | [] => []
  | d :: rest => d :: (rest.reverse.dropWhile (· == '0')).reverse

def magnitudeChars (magnitude : Nat) : List Char :=
  let decimal := Binary64.shortest magnitude
  let all := natChars decimal.digits
  let e := decimal.exponent + all.length - 1
  let digits := dropTrailingZeros all
  if leastPlain ≤ e ∧ e ≤ greatestPlain then plainChars digits e else scientificChars digits e

def chars : Number → List Char
  | .integer n => intChars n.val
  | .real x => if x.negative then '-' :: magnitudeChars x.magnitude else magnitudeChars x.magnitude

/-- The real nearest to the number. Every integer of 64 bits has one. -/
def toReal : Number → Binary64
  | .integer n => (Binary64.ofInt? n.val).getD .zero
  | .real x => x

/-- A natural number: an integer while it fits 64 bits, and the nearest real beyond. -/
def ofNat (n : Nat) : Number :=
  match Integer.ofInt? n with
  | some i => .integer i
  | none => .real ((Binary64.ofInt? n).getD .zero)

/-- The value by which numbers are compared: that of the nearest real. -/
def value (n : Number) : Int := n.toReal.value

/-- Whether two numbers are the same as data: an integer is never a real. -/
def same : Number → Number → Bool
  | .integer m, .integer n => m.val == n.val
  | .real x, .real y => x.value == y.value
  | _, _ => false

end Number

end Reshape
