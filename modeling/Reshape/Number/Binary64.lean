/-
  Reshape.Number.Binary64 — the finite numbers of the 64-bit binary format.

  A number is a sign and a magnitude; magnitudes are numbered 0, 1, 2, … in increasing
  order, which is how the format stores them. Every magnitude is a whole number of units
  of 2^-1074 (`units`), so rounding and comparing are exact arithmetic on naturals.
  - `roundRatio` finds the magnitude nearest to a fraction, a tie going to the even one.
  - `Binary64` holds finite numbers only; a fraction too large for the format has no
    number (`ofRatio?`).
  - Order and equality of values (`value`) see zero once, whatever its sign.

  A magnitude is written with one, two, … up to seventeen significant digits. At each
  length the two decimals next to it are tried; the first length at which one of them
  rounds back to the magnitude wins, and of two that do the nearer (of two as near, the
  even one) is taken (`shortest`). Seventeen digits always read back. Everything is scaled
  by 10^400 for that, so the work is on naturals.
-/

namespace Reshape

def twoTo (n : Nat) : Nat := Nat.pow 2 n

def tenTo (n : Nat) : Nat := Nat.pow 10 n

/-- The first magnitude that is not finite. -/
def firstInfinite : Nat := 0x7FF0000000000000

/-- A finite number: its sign and the place of its magnitude in increasing order. -/
structure Binary64 where
  negative : Bool
  magnitude : Nat
  finite : magnitude < firstInfinite
  deriving DecidableEq, Repr

namespace Binary64

def zero : Binary64 := ⟨false, 0, by decide⟩

/-- How many magnitudes there are for each exponent: 2^52. -/
def binade : Nat := 0x10000000000000

/-- The magnitude in units of 2^-1074: 52 bits of fraction, and a leading bit unless the exponent field is zero. -/
def units (magnitude : Nat) : Nat :=
  if magnitude < binade then magnitude else (magnitude % binade + binade) * twoTo (magnitude / binade - 1)

/-- The quotient rounded to the nearest natural, a tie to the even one. -/
def divNearest (num den : Nat) : Nat :=
  let low := num / den
  let twice := 2 * (num % den)
  if twice < den ∨ twice = den ∧ low % 2 = 0 then low else low + 1

/-- The magnitude nearest to `num / den`, a tie to the even one; it may be infinite. The coarseness of the
    format is `2 ^ shift` units where the fraction has `53 + shift` bits before the point. -/
def roundRatio (num den : Nat) : Nat :=
  let scaled := num * twoTo 1074
  let shift := (scaled / den).log2 - 52
  shift * binade + divNearest scaled (den * twoTo shift)

def ofRatio? (negative : Bool) (num den : Nat) : Option Binary64 :=
  let magnitude := roundRatio num den
  if h : magnitude < firstInfinite then some ⟨negative, magnitude, h⟩ else none

/-- The number nearest to `digits · 10^exponent`. An exponent out of all proportion to the number of digits
    is decided without writing the power out: beyond 10^400 nothing is finite, and below 10^-400 all is zero. -/
def ofDecimal? (negative : Bool) (digits : Nat) (exponent : Int) : Option Binary64 :=
  let size := ((Nat.toDigits 10 digits).length : Int) + exponent
  if digits = 0 ∨ size < -400 then ofRatio? negative 0 1
  else if 400 < size then none
  else if 0 ≤ exponent then ofRatio? negative (digits * tenTo exponent.toNat) 1
  else ofRatio? negative digits (tenTo (-exponent).toNat)

/-- The value in units of 2^-1074. -/
def value (x : Binary64) : Int := if x.negative then -(units x.magnitude : Int) else units x.magnitude

def ofInt? (n : Int) : Option Binary64 := ofRatio? (n < 0) n.natAbs 1

end Binary64

/-! ## The fewest digits -/

/-- A decimal `digits · 10^exponent`. -/
structure Decimal where
  digits : Nat
  exponent : Int
  deriving DecidableEq, Repr

namespace Binary64

def decimalLength (n : Nat) : Nat := (Nat.toDigits 10 n).length

/-- The magnitude of `digits · 10^(power - 400)`. -/
def magnitudeOf (digits power : Nat) : Nat := roundRatio (digits * tenTo power) (tenTo 400)

/-- The decimal with `10^(power - 400)` as its last place that stands for the magnitude, if there is one. -/
def decimalAt? (magnitude power : Nat) : Option Nat :=
  let scaled := units magnitude * tenTo 400
  let place := twoTo 1074 * tenTo power
  let low := scaled / place
  let high := low + 1
  let nearest := divNearest scaled place
  let other := if nearest = low then high else low
  if magnitudeOf nearest power = magnitude then some nearest
  else if magnitudeOf other power = magnitude then some other
  else none

/-- The decimal exponent of the leading digit, raised by 400. -/
def leadingPower (magnitude : Nat) : Nat := decimalLength (units magnitude * tenTo 400 / twoTo 1074) - 1

def lastPower (magnitude length : Nat) : Nat := leadingPower magnitude + 1 - length

def decimalOf? (magnitude length : Nat) : Option Decimal :=
  (decimalAt? magnitude (lastPower magnitude length)).map fun digits => ⟨digits, lastPower magnitude length - 400⟩

/-- The decimal with seventeen significant digits that is nearest to the magnitude. -/
def decimalNear (magnitude : Nat) : Decimal :=
  let power := lastPower magnitude 17
  ⟨divNearest (units magnitude * tenTo 400) (twoTo 1074 * tenTo power), power - 400⟩

/-- The shortest decimal that reads back as the magnitude. -/
def shortest (magnitude : Nat) : Decimal :=
  if magnitude = 0 then ⟨0, 0⟩
  else ((List.range' 1 16).findSome? (decimalOf? magnitude)).getD (decimalNear magnitude)

end Binary64

end Reshape
