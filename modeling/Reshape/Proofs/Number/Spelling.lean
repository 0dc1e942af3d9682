/-
  Reshape.Proofs.Number.Spelling — which texts spell a number, and which number they name.

  `Proper` is the shape of a literal: a whole part without leading zeros, a fraction of
  digits, an exponent with a mark, a sign or none, and digits. `Names` says what number it
  stands for, by its value: an integer that has neither fraction nor exponent and fits 64
  bits is that integer, any other is the number nearest to its value, and one whose nearest
  magnitude is infinite names nothing.

  - `number?_eq_some_iff`: a literal is read as the number that it names.
  - `scan_sound`, `scan_complete`: the scanner takes exactly a proper literal off a text,
    and every proper literal off a text that does not go on with it.
-/

import Mathlib.Data.List.TakeWhile
import Reshape.Number.Literal
import Reshape.Proofs.Number.Rounding

namespace Reshape

def Digits (text : List Char) : Prop := ∀ c ∈ text, isDigit c = true

def EndsDigits (rest : List Char) : Prop := ∀ c ∈ rest.head?, isDigit c = false

theorem Digits.nil : Digits [] := by simp [Digits]

theorem takeWhile_isDigit (text : List Char) : Digits (text.takeWhile isDigit) := fun _ => List.mem_takeWhile_imp

theorem EndsDigits.takeWhile {rest : List Char} (h : EndsDigits rest) : rest.takeWhile isDigit = [] := by
  cases rest with
  | nil => rfl
  | cons c rest => simp [h c rfl]

theorem EndsDigits.dropWhile {rest : List Char} (h : EndsDigits rest) : rest.dropWhile isDigit = rest := by
  cases rest with
  | nil => rfl
  | cons c rest => simp [h c rfl]

theorem takeWhile_digits {digits rest : List Char} (hd : Digits digits) (h : EndsDigits rest) :
    (digits ++ rest).takeWhile isDigit = digits := by
  rw [List.takeWhile_append_of_pos hd, h.takeWhile, List.append_nil]

theorem dropWhile_digits {digits rest : List Char} (hd : Digits digits) (h : EndsDigits rest) :
    (digits ++ rest).dropWhile isDigit = rest := by
  rw [List.dropWhile_append_of_pos hd, h.dropWhile]

namespace Literal

/-! ## The shape of a literal -/

/-- A zero alone, or digits of which the first is no zero. -/
def WholePart (digits : List Char) : Prop := digits = ['0'] ∨ digits ≠ [] ∧ Digits digits ∧ digits.head? ≠ some '0'

structure ProperExponent (e : Exponent) : Prop where
  mark : e.mark = 'e' ∨ e.mark = 'E'
  sign : e.sign = none ∨ e.sign = some '+' ∨ e.sign = some '-'
  nonempty : e.digits ≠ []
  digits : Digits e.digits

structure Proper (l : Literal) : Prop where
  whole : WholePart l.whole
  fraction : Digits l.fraction
  exponent : ∀ e, l.exponent = some e → ProperExponent e

/-- A text that a literal in front of it does not go on with. -/
def Ends (rest : List Char) : Prop := ∀ c ∈ rest.head?, isDigit c = false ∧ c ≠ '.' ∧ c ≠ 'e' ∧ c ≠ 'E'

theorem Ends.endsDigits {rest : List Char} (h : Ends rest) : EndsDigits rest := fun c hc => (h c hc).1

theorem WholePart.digits {digits : List Char} (h : WholePart digits) : Digits digits := by
  rcases h with rfl | ⟨-, h, -⟩
  · simp only [Digits, List.mem_singleton, forall_eq]; decide
  · exact h

theorem WholePart.exists_cons {digits : List Char} (h : WholePart digits) :
    ∃ d rest, digits = d :: rest ∧ isDigit d = true := by
  have hd := h.digits
  match digits, h with
  | d :: rest, _ => exact ⟨d, rest, rfl, hd d (.head _)⟩
  | [], .inl h => cases h
  | [], .inr h => exact absurd rfl h.1

/-! ## Scanning -/

theorem scanSign_sound (text : List Char) :
    text = (if (scanSign text).1 then ['-'] else []) ++ (scanSign text).2 := by
  unfold scanSign
  split <;> rfl

theorem scanSign_complete (negative : Bool) {text : List Char} (h : text.head? ≠ some '-') :
    scanSign ((if negative then ['-'] else []) ++ text) = (negative, text) := by
  cases negative with
  | true => rfl
  | false =>
    simp only [Bool.false_eq_true, if_false, List.nil_append]
    unfold scanSign
    split
    · exact absurd rfl h
    · rfl

theorem scanWhole_sound {text whole rest : List Char} (hs : scanWhole text = (whole, rest)) (h : whole ≠ []) :
    text = whole ++ rest ∧ WholePart whole := by
  unfold scanWhole at hs
  split at hs
  · obtain ⟨rfl, rfl⟩ := Prod.mk.inj hs
    exact ⟨rfl, .inl rfl⟩
  · rename_i hzero
    obtain ⟨rfl, rfl⟩ := Prod.mk.inj hs
    refine ⟨List.takeWhile_append_dropWhile.symm, .inr ⟨h, takeWhile_isDigit _, fun hh => ?_⟩⟩
    cases text with
    | nil => cases hh
    | cons c text =>
      by_cases hc : isDigit c = true
      · simp only [List.takeWhile_cons_of_pos hc, List.head?_cons, Option.some.injEq] at hh
        exact hzero text (by rw [hh])
      · exact h (List.takeWhile_cons_of_neg hc)

theorem scanWhole_complete {whole rest : List Char} (h : WholePart whole) (hr : EndsDigits rest) :
    scanWhole (whole ++ rest) = (whole, rest) := by
  rcases h with rfl | ⟨hne, hd, hz⟩
  · rfl
  · unfold scanWhole
    split
    · rename_i heq
      cases whole with
      | nil => exact absurd rfl hne
      | cons c whole =>
        obtain ⟨rfl, -⟩ := List.cons.inj heq
        exact absurd rfl hz
    · rw [takeWhile_digits hd hr, dropWhile_digits hd hr]

def fractionChars (fraction : List Char) : List Char := if fraction.isEmpty then [] else '.' :: fraction

theorem scanFraction?_sound {text fraction rest : List Char} (h : scanFraction? text = some (fraction, rest)) :
    text = fractionChars fraction ++ rest ∧ Digits fraction := by
  unfold scanFraction? at h
  split at h
  · rename_i digits
    dsimp only at h
    split at h
    · cases h
    · rename_i hne
      obtain ⟨rfl, rfl⟩ := Prod.mk.inj (Option.some.inj h)
      refine ⟨?_, takeWhile_isDigit _⟩
      rw [fractionChars, if_neg hne, List.cons_append, List.takeWhile_append_dropWhile]
  · obtain ⟨rfl, rfl⟩ := Prod.mk.inj (Option.some.inj h)
    exact ⟨rfl, Digits.nil⟩

theorem scanFraction?_complete {fraction rest : List Char} (h : Digits fraction) (hr : EndsDigits rest)
    (hp : rest.head? ≠ some '.') : scanFraction? (fractionChars fraction ++ rest) = some (fraction, rest) := by
  cases fraction with
  | nil =>
    simp only [fractionChars, List.isEmpty_nil, if_true, List.nil_append]
    unfold scanFraction?
    split
    · exact absurd rfl hp
    · rfl
  | cons d digits =>
    simp only [fractionChars, List.isEmpty_cons, Bool.false_eq_true, if_false, List.cons_append, scanFraction?]
    rw [← List.cons_append, takeWhile_digits h hr, dropWhile_digits h hr]
    rfl

theorem scanExponentSign_sound (text : List Char) :
    text = (scanExponentSign text).1.toList ++ (scanExponentSign text).2 ∧
      ((scanExponentSign text).1 = none ∨ (scanExponentSign text).1 = some '+' ∨
        (scanExponentSign text).1 = some '-') := by
  unfold scanExponentSign
  split <;> simp

theorem scanExponentSign_complete {sign : Option Char} (h : sign = none ∨ sign = some '+' ∨ sign = some '-')
    {text : List Char} (hd : ∀ c ∈ text.head?, isDigit c = true) :
    scanExponentSign (sign.toList ++ text) = (sign, text) := by
  rcases h with rfl | rfl | rfl
  · simp only [Option.toList_none, List.nil_append]
    unfold scanExponentSign
    split
    · exact absurd (hd '+' rfl) (by decide)
    · exact absurd (hd '-' rfl) (by decide)
    · rfl
  · rfl
  · rfl

theorem scanExponent?_sound {text rest : List Char} {exponent : Option Exponent}
    (h : scanExponent? text = some (exponent, rest)) :
    text = exponentChars exponent ++ rest ∧ ∀ e, exponent = some e → ProperExponent e := by
  unfold scanExponent? at h
  split at h
  · obtain ⟨rfl, rfl⟩ := Prod.mk.inj (Option.some.inj h)
    exact ⟨rfl, fun e he => by cases he⟩
  · rename_i c more
    split at h
    · rename_i hc
      dsimp only at h
      split at h
      · cases h
      · rename_i hne
        obtain ⟨rfl, rfl⟩ := Prod.mk.inj (Option.some.inj h)
        obtain ⟨hsplit, hsign⟩ := scanExponentSign_sound more
        refine ⟨?_, fun e he => ?_⟩
        · simp only [exponentChars, List.cons_append, List.append_assoc, List.takeWhile_append_dropWhile]
          rw [← hsplit]
        · obtain rfl := Option.some.inj he
          exact ⟨hc, hsign, fun h => hne (List.isEmpty_iff.2 h), takeWhile_isDigit _⟩
    · obtain ⟨rfl, rfl⟩ := Prod.mk.inj (Option.some.inj h)
      exact ⟨rfl, fun e he => by cases he⟩

theorem scanExponent?_complete {exponent : Option Exponent} {rest : List Char}
    (h : ∀ e, exponent = some e → ProperExponent e) (hr : Ends rest) :
    scanExponent? (exponentChars exponent ++ rest) = some (exponent, rest) := by
  cases exponent with
  | none =>
    cases rest with
    | nil => rfl
    | cons c rest =>
      obtain ⟨-, -, he, hE⟩ := hr c rfl
      simp [exponentChars, scanExponent?, he, hE]
  | some e =>
    obtain ⟨hmark, hsign, hne, hd⟩ := h e rfl
    have hfirst : ∀ c ∈ (e.digits ++ rest).head?, isDigit c = true := by
      cases hdig : e.digits with
      | nil => exact absurd hdig hne
      | cons d ds =>
        simp only [List.cons_append, List.head?_cons, Option.mem_def, Option.some.injEq, forall_eq']
        exact hd d (hdig ▸ .head _)
    simp only [exponentChars, List.cons_append, List.append_assoc, scanExponent?, if_pos hmark,
      scanExponentSign_complete hsign hfirst, takeWhile_digits hd hr.endsDigits, dropWhile_digits hd hr.endsDigits,
      List.isEmpty_iff, if_neg hne]

/-- What the scanner takes off a text is a proper literal. -/
theorem scan_sound {text rest : List Char} {l : Literal} (h : scan text = .literal l rest) :
    text = l.chars ++ rest ∧ l.Proper := by
  have hsign := scanSign_sound text
  obtain ⟨negative, text₁, hs⟩ : ∃ negative text₁, scanSign text = (negative, text₁) := ⟨_, _, rfl⟩
  obtain ⟨whole, text₂, hw⟩ : ∃ whole text₂, scanWhole text₁ = (whole, text₂) := ⟨_, _, rfl⟩
  simp only [scan, hs, hw] at h hsign
  split at h
  · cases h
  · rename_i hne
    obtain ⟨hwhole, hproper⟩ := scanWhole_sound hw (fun h => hne (List.isEmpty_iff.2 h))
    split at h
    · cases h
    · rename_i fraction text₃ hf
      obtain ⟨hfraction, hdigits⟩ := scanFraction?_sound hf
      split at h
      · cases h
      · rename_i exponent text₄ he
        obtain ⟨hexponent, hmarks⟩ := scanExponent?_sound he
        cases h
        refine ⟨?_, hproper, hdigits, hmarks⟩
        rw [hsign, hwhole, hfraction, hexponent]
        simp only [chars, fractionChars, List.append_assoc]

/-- Of what follows a whole part nothing is read as part of it. -/
theorem endsDigits_fraction {fraction rest : List Char} (h : EndsDigits rest) :
    EndsDigits (fractionChars fraction ++ rest) := by
  cases fraction with
  | nil => exact h
  | cons d digits =>
    rintro c hc
    obtain rfl : '.' = c := by simpa [fractionChars] using hc
    decide

theorem ends_exponent {exponent : Option Exponent} (h : ∀ e, exponent = some e → ProperExponent e)
    {rest : List Char} (hr : Ends rest) :
    EndsDigits (exponentChars exponent ++ rest) ∧ (exponentChars exponent ++ rest).head? ≠ some '.' := by
  cases exponent with
  | none => exact ⟨hr.endsDigits, fun hp => (hr '.' hp).2.1 rfl⟩
  | some e =>
    simp only [exponentChars, List.cons_append, EndsDigits, List.head?_cons, Option.mem_def, Option.some.injEq,
      forall_eq', ne_eq]
    rcases (h e rfl).mark with hm | hm <;> rw [hm] <;> decide

/-- A proper literal is taken off a text that does not go on with it. -/
theorem scan_complete {l : Literal} (h : l.Proper) {rest : List Char} (hr : Ends rest) :
    scan (l.chars ++ rest) = .literal l rest := by
  obtain ⟨d, more, hd, hdigit⟩ := h.whole.exists_cons
  obtain ⟨hdigits, hpoint⟩ := ends_exponent h.exponent hr
  have hsign : (l.whole ++ (fractionChars l.fraction ++ (exponentChars l.exponent ++ rest))).head? ≠ some '-' := by
    rw [hd]
    rintro he
    obtain rfl := Option.some.inj he
    exact absurd hdigit (by decide)
  have hchars : l.chars ++ rest = (if l.negative then ['-'] else []) ++
      (l.whole ++ (fractionChars l.fraction ++ (exponentChars l.exponent ++ rest))) := by
    simp only [chars, fractionChars, List.append_assoc]
  have hne : ¬ l.whole.isEmpty = true := by simp [hd]
  simp only [hchars, scan, scanSign_complete _ hsign, scanWhole_complete h.whole (endsDigits_fraction hdigits),
    scanFraction?_complete h.fraction hdigits hpoint, scanExponent?_complete h.exponent hr, if_neg hne]

theorem Proper.chars_ne_nil {l : Literal} (h : l.Proper) : l.chars ≠ [] := by
  obtain ⟨d, more, hd, -⟩ := h.whole.exists_cons
  simp [chars, hd]

/-- A literal begins with a minus sign or a digit. -/
theorem Proper.head {l : Literal} (h : l.Proper) : ∃ c more, l.chars = c :: more ∧ (c = '-' ∨ isDigit c = true) := by
  obtain ⟨d, more, hd, hdigit⟩ := h.whole.exists_cons
  cases hn : l.negative with
  | true => exact ⟨'-', _, by simp [chars, hn]; rfl, .inl rfl⟩
  | false => exact ⟨d, _, by simp [chars, hn, hd]; rfl, .inr hdigit⟩

/-! ## What a literal names -/

def integral (l : Literal) : Int := if l.negative then -(decimal l.whole : Int) else decimal l.whole

def worth (l : Literal) : Rat := decimal (l.whole ++ l.fraction) * 10 ^ (power l.exponent - l.fraction.length)

def IsInteger (l : Literal) : Prop :=
  l.isWhole = true ∧ -9223372036854775808 ≤ l.integral ∧ l.integral < 18446744073709551616

/-- The number that a literal stands for: the integer itself, or else the real nearest to its value. -/
inductive Names (l : Literal) : Number → Prop where
  | integer (n : Integer) : l.IsInteger → n.val = l.integral → Names l (.integer n)
  | real (x : Binary64) : ¬ l.IsInteger → x.negative = l.negative → Binary64.Nearest (l.worth * 2 ^ 1074) x.magnitude →
    Names l (.real x)

theorem integer?_eq_some_iff {l : Literal} {n : Integer} : l.integer? = some n ↔ n.val = l.integral := by
  change Integer.ofInt? l.integral = some n ↔ _
  generalize l.integral = v
  unfold Integer.ofInt?
  constructor
  · intro h
    split at h
    · obtain rfl := Option.some.inj h
      rfl
    · cases h
  · rintro rfl
    rw [dif_pos ⟨n.lower, n.upper⟩]

theorem real?_eq_some_iff {l : Literal} {x : Binary64} :
    l.real? = some x ↔ x.negative = l.negative ∧ Binary64.Nearest (l.worth * 2 ^ 1074) x.magnitude :=
  Binary64.ofDecimal?_eq_some_iff

theorem number?_eq_some_iff {l : Literal} {n : Number} : l.number? = some n ↔ l.Names n := by
  by_cases h : l.IsInteger
  · obtain ⟨hw, hlow, hhigh⟩ := h
    have hn : l.integer? = some ⟨l.integral, hlow, hhigh⟩ := integer?_eq_some_iff.2 rfl
    simp only [number?, hw, hn, Option.some.injEq]
    constructor
    · rintro rfl
      exact .integer _ ⟨hw, hlow, hhigh⟩ rfl
    · rintro (⟨m, -, hm⟩ | ⟨x, h, -⟩)
      · cases m
        cases hm
        rfl
      · exact absurd ⟨hw, hlow, hhigh⟩ h
  · have hreal : l.number? = l.real?.map .real := by
      unfold number?
      split
      · rename_i hw hn
        have hv := integer?_eq_some_iff.1 hn
        exact absurd ⟨hw, hv ▸ ‹Integer›.lower, hv ▸ ‹Integer›.upper⟩ h
      · rfl
    rw [hreal, Option.map_eq_some_iff]
    constructor
    · rintro ⟨x, hx, rfl⟩
      obtain ⟨hs, hm⟩ := real?_eq_some_iff.1 hx
      exact .real x h hs hm
    · rintro (⟨m, hi, -⟩ | ⟨x, -, hs, hm⟩)
      · exact absurd hi h
      · exact ⟨x, real?_eq_some_iff.2 ⟨hs, hm⟩, rfl⟩

end Literal

end Reshape
