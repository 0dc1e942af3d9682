/-
  Reshape.Proofs.Number.Written — a number as it is written spells that number.

  An integer is written in decimal. A real is written by the digits of a decimal to which
  it is the nearest number: one was found by trying, or has seventeen digits and is then
  closer to the real than half the gap to its neighbours (`decimalNear_nearest`). Wherever
  the point goes and whatever zeros come in, the digits keep their value (`plain_writes`,
  `scientific_writes`), and there always is a point or an exponent.

  - `Number.chars_spelled`: the text of a number is a proper literal that names it.
-/

import Reshape.Number.Basic
import Reshape.Proofs.Number.Spelling

namespace Reshape

/-! ## Digits and their value -/

theorem decimalFrom_eq (high : Nat) (digits : List Char) :
    decimalFrom high digits = high * 10 ^ digits.length + decimal digits := by
  induction digits generalizing high with
  | nil => simp [decimalFrom, decimal]
  | cons c digits ih =>
    have hcons (n : Nat) : decimalFrom n (c :: digits) = decimalFrom (10 * n + digitValue c) digits := rfl
    rw [decimal, hcons, hcons, ih, ih (10 * 0 + digitValue c), List.length_cons, Nat.pow_succ]
    ring

theorem decimal_append (a b : List Char) : decimal (a ++ b) = decimal a * 10 ^ b.length + decimal b := by
  rw [← decimalFrom_eq]
  exact List.foldl_append

@[simp] theorem decimal_zeros (n : Nat) : decimal (List.replicate n '0') = 0 := by
  induction n with
  | zero => rfl
  | succ n ih => rw [List.replicate_succ', decimal_append, ih]; simp [decimal, decimalFrom, digitValue]

theorem decimal_append_zeros (digits : List Char) (n : Nat) :
    decimal (digits ++ List.replicate n '0') = decimal digits * 10 ^ n := by
  rw [decimal_append, decimal_zeros, List.length_replicate, Nat.add_zero]

theorem decimal_zeros_append (n : Nat) (digits : List Char) :
    decimal (List.replicate n '0' ++ digits) = decimal digits := by
  rw [decimal_append, decimal_zeros, Nat.zero_mul, Nat.zero_add]

@[simp] theorem decimal_natChars (n : Nat) : decimal (natChars n) = n :=
  Nat.ofDigitChars_toDigits (by decide) (by decide)

theorem natChars_ne_nil (n : Nat) : natChars n ≠ [] := Nat.toDigits_ne_nil

theorem digits_natChars (n : Nat) : Digits (natChars n) := by
  intro c hc
  have h : c.isDigit = true := Nat.isDigit_of_mem_toDigits (by decide) (by decide) hc
  simpa [isDigit, Char.isDigit, Char.le_def] using h

theorem Digits.append {a b : List Char} (ha : Digits a) (hb : Digits b) : Digits (a ++ b) := by
  intro c hc
  rcases List.mem_append.1 hc with h | h
  · exact ha c h
  · exact hb c h

theorem digits_zeros (n : Nat) : Digits (List.replicate n '0') := by
  intro c hc
  rw [List.eq_of_mem_replicate hc]
  decide

theorem digitValue_lt {c : Char} (h : isDigit c = true) : digitValue c < 10 := by
  simp only [isDigit, Bool.and_eq_true, decide_eq_true_eq, Char.le_def, UInt32.le_iff_toNat_le] at h
  have h₀ : '0'.val.toNat = 48 := rfl
  have h₉ : '9'.val.toNat = 57 := rfl
  change c.val.toNat - 48 < 10
  omega

theorem decimal_lt {digits : List Char} (h : Digits digits) : decimal digits < 10 ^ digits.length := by
  induction digits using List.reverseRecOn with
  | nil => decide
  | append_singleton digits c ih =>
    have hlt := ih fun d hd => h d (List.mem_append_left _ hd)
    have hc := digitValue_lt (h c (by simp))
    have hone : decimal [c] = digitValue c := by simp [decimal, decimalFrom]
    rw [decimal_append, hone, List.length_append, List.length_singleton, Nat.pow_succ]
    omega

/-- A number but zero is written without a leading zero. -/
theorem head_natChars {n : Nat} (hn : n ≠ 0) : (natChars n).head? ≠ some '0' := by
  intro h
  cases hd : natChars n with
  | nil => exact natChars_ne_nil n hd
  | cons c rest =>
    rw [hd] at h
    obtain rfl := Option.some.inj h
    have hvalue : decimal rest = n := by
      rw [← decimal_natChars n, hd, show ('0' :: rest) = ['0'] ++ rest from rfl, decimal_append]
      simp [decimal, decimalFrom, digitValue]
    have hrest : Digits rest := fun d hr => digits_natChars n d (hd ▸ .tail _ hr)
    have hlow := (Binary64.toDigits_bounds hn).1
    rw [show Nat.toDigits 10 n = '0' :: rest from hd, List.length_cons, Nat.add_sub_cancel] at hlow
    exact absurd (decimal_lt hrest) (by omega)

theorem wholePart_natChars (n : Nat) : Literal.WholePart (natChars n) := by
  by_cases hn : n = 0
  · subst hn
    exact .inl (by decide)
  · exact .inr ⟨natChars_ne_nil n, digits_natChars n, head_natChars hn⟩

/-! ## Decimals that read back -/

def Decimal.worth (d : Decimal) : Rat := d.digits * 10 ^ d.exponent

namespace Binary64

def placeUnits (power : Nat) : Rat := 10 ^ ((power : Int) - 400) * 2 ^ 1074

theorem placeUnits_pos (power : Nat) : 0 < placeUnits power := by
  unfold placeUnits
  positivity

theorem worth_units (digits power : Nat) :
    Decimal.worth ⟨digits, (power : Int) - 400⟩ * 2 ^ 1074 = digits * placeUnits power :=
  mul_assoc _ _ _

theorem placeUnits_scaled (power : Nat) : placeUnits power * tenTo 400 = twoTo 1074 * tenTo power := by
  have h : (10 : Rat) ^ ((power : Int) - 400) * 10 ^ 400 = 10 ^ power := by
    have := zpow_add₀ (show (10 : Rat) ≠ 0 by norm_num) ((power : Int) - 400) (400 : Nat)
    rw [zpow_natCast] at this
    rw [← this, ← zpow_natCast]
    congr 1
    omega
  rw [placeUnits, tenTo_eq, tenTo_eq, twoTo_eq, Nat.cast_pow, Nat.cast_pow, Nat.cast_pow, mul_right_comm]
  rw [Nat.cast_ofNat, Nat.cast_ofNat, h, mul_comm]

theorem magnitudeOf_nearest (digits power : Nat) :
    Nearest (Decimal.worth ⟨digits, (power : Int) - 400⟩ * 2 ^ 1074) (magnitudeOf digits power) := by
  have h := roundRatio_nearest (digits * tenTo power) (tenTo_pos 400)
  have hpos : (0 : Rat) < tenTo 400 := by exact_mod_cast tenTo_pos 400
  have e : ((digits * tenTo power : Nat) : Rat) * 2 ^ 1074 / tenTo 400 =
      Decimal.worth ⟨digits, (power : Int) - 400⟩ * 2 ^ 1074 := by
    rw [worth_units, div_eq_iff hpos.ne', mul_assoc, placeUnits_scaled, twoTo_eq, Nat.cast_mul, Nat.cast_pow,
      Nat.cast_ofNat, mul_assoc, mul_comm (tenTo power : Rat)]
  rw [e] at h
  exact h

theorem decimalAt?_reads {magnitude power digits : Nat} (h : decimalAt? magnitude power = some digits) :
    magnitudeOf digits power = magnitude := by
  unfold decimalAt? at h
  dsimp only at h
  generalize divNearest (units magnitude * tenTo 400) (twoTo 1074 * tenTo power) = nearest at h
  generalize (if nearest = _ then _ else _) = other at h
  split at h
  · obtain rfl := Option.some.inj h
    assumption
  · split at h
    · obtain rfl := Option.some.inj h
      assumption
    · cases h

/-- At a scale of `10^400` a magnitude has at least seventeen digits before the point, the first of them where
    `leadingPower` says. -/
theorem leadingPower_le {magnitude : Nat} (hm : magnitude ≠ 0) :
    10 ^ leadingPower magnitude * twoTo 1074 ≤ units magnitude * tenTo 400 ∧ 16 ≤ leadingPower magnitude := by
  have hu : 1 ≤ units magnitude := units_lt_units.2 (Nat.pos_of_ne_zero hm)
  have hlarge : 10 ^ 16 ≤ units magnitude * tenTo 400 / twoTo 1074 := by
    rw [Nat.le_div_iff_mul_le (twoTo_pos 1074)]
    exact (by decide +kernel : 10 ^ 16 * twoTo 1074 ≤ 1 * tenTo 400).trans (Nat.mul_le_mul_right _ hu)
  unfold leadingPower decimalLength
  generalize hq : units magnitude * tenTo 400 / twoTo 1074 = q at *
  have hne : q ≠ 0 := by
    rintro rfl
    exact absurd hlarge (by decide)
  obtain ⟨hlow, hhigh⟩ := toDigits_bounds hne
  refine ⟨?_, ?_⟩
  · rw [← Nat.le_div_iff_mul_le (twoTo_pos 1074), hq]
    exact hlow
  · have := (Nat.pow_lt_pow_iff_right (by decide)).1 (hlarge.trans_lt hhigh)
    omega

/-- Seventeen digits are close enough: the error is less than half the gap to the next magnitude. -/
theorem decimalNear_nearest {magnitude : Nat} (hm : magnitude ≠ 0) :
    Nearest ((decimalNear magnitude).worth * 2 ^ 1074) magnitude := by
  simp only [decimalNear]
  obtain ⟨power, hpower⟩ : ∃ power, lastPower magnitude 17 = power := ⟨_, rfl⟩
  have hp : power + 16 = leadingPower magnitude := by
    have := (leadingPower_le hm).2
    rw [← hpower, lastPower]
    omega
  rw [hpower]
  obtain ⟨hlead, -⟩ := leadingPower_le hm
  have hplace := placeUnits_pos power
  have hscaled := placeUnits_scaled power
  have hten : (0 : Rat) < tenTo 400 := by exact_mod_cast tenTo_pos 400
  have hnear := (divNearest_near (units magnitude * tenTo 400) (Nat.mul_pos (twoTo_pos 1074) (tenTo_pos power))).1
  generalize divNearest (units magnitude * tenTo 400) (twoTo 1074 * tenTo power) = digits at *
  -- the quotient that was rounded is the magnitude, measured in places
  have hquotient : ((units magnitude * tenTo 400 : Nat) : Rat) / (twoTo 1074 * tenTo power : Nat) =
      units magnitude / placeUnits power := by
    rw [Nat.cast_mul, Nat.cast_mul, ← hscaled, mul_div_mul_right _ _ hten.ne']
  have herror : |digits * placeUnits power - units magnitude| ≤ placeUnits power / 2 := by
    have e : (digits * placeUnits power - units magnitude : Rat) =
        -((units magnitude / placeUnits power - digits) * placeUnits power) := by
      field_simp
      ring
    rw [hquotient] at hnear
    rw [e, abs_neg, abs_mul, abs_of_pos hplace]
    linarith [mul_le_mul_of_nonneg_right hnear hplace.le]
  have hsize : 10 ^ 16 * placeUnits power ≤ units magnitude := by
    have hcast : ((10 ^ leadingPower magnitude * twoTo 1074 : Nat) : Rat) ≤ (units magnitude * tenTo 400 : Nat) := by
      exact_mod_cast hlead
    refine le_of_mul_le_mul_right ?_ hten
    rw [← hp, Nat.cast_mul, Nat.cast_mul, Nat.pow_add, Nat.cast_mul, ← tenTo_eq power] at hcast
    rw [mul_assoc, hscaled]
    rw [Nat.cast_pow, Nat.cast_ofNat] at hcast
    linarith
  refine nearest_of_close ?_
  rw [worth_units]
  linarith

theorem decimalOf?_nearest {magnitude length : Nat} {d : Decimal} (h : decimalOf? magnitude length = some d) :
    Nearest (d.worth * 2 ^ 1074) magnitude := by
  obtain ⟨digits, hd, rfl⟩ := Option.map_eq_some_iff.1 h
  have := magnitudeOf_nearest digits (lastPower magnitude length)
  rw [decimalAt?_reads hd] at this
  exact this

/-- The shortest decimal reads back as the magnitude. -/
theorem shortest_nearest (magnitude : Nat) : Nearest ((shortest magnitude).worth * 2 ^ 1074) magnitude := by
  unfold shortest
  split
  · rename_i h
    subst h
    exact (nearest_small (by simp [Decimal.worth]) (by simp [Decimal.worth])).2 rfl
  · rename_i h
    cases hd : (List.range' 1 16).findSome? (decimalOf? magnitude) with
    | some d =>
      obtain ⟨length, -, hlength⟩ := List.exists_of_findSome?_eq_some hd
      exact decimalOf?_nearest hlength
    | none => exact decimalNear_nearest h

end Binary64

/-! ## Where the point goes -/

namespace Number

/-- A text that spells, without a sign and not as an integer, a number that is worth `v`. -/
def Writes (text : List Char) (v : Rat) : Prop :=
  ∃ l : Literal, l.negative = false ∧ l.chars = text ∧ l.Proper ∧ l.isWhole = false ∧ l.worth = v

/-- Digits to be written, the first of them at `10^e`: only a zero alone begins with a zero. -/
structure Significant (digits : List Char) (e : Int) : Prop where
  nonempty : digits ≠ []
  all : Digits digits
  lead : digits.head? ≠ some '0' ∨ digits = ['0'] ∧ e = 0

theorem plain_small {digits : List Char} {e : Int} (h : Significant digits e) (he : e < 0) :
    Writes ('0' :: '.' :: (List.replicate ((-e).toNat - 1) '0' ++ digits))
      (decimal digits * 10 ^ (e + 1 - digits.length)) := by
  have hlen : 0 < digits.length := List.length_pos_iff.2 h.nonempty
  have hne : (List.replicate ((-e).toNat - 1) '0' ++ digits).isEmpty = false := by simp [h.nonempty]
  refine ⟨⟨false, ['0'], List.replicate ((-e).toNat - 1) '0' ++ digits, none⟩, rfl, ?_,
    ⟨.inl rfl, (digits_zeros _).append h.all, nofun⟩, ?_, ?_⟩
  · simp only [Literal.chars, hne, Bool.false_eq_true, if_false, Literal.exponentChars]
    simp
  · simp only [Literal.isWhole, hne, Bool.false_and]
  · have hzero : ['0'] ++ (List.replicate ((-e).toNat - 1) '0' ++ digits) =
        List.replicate (((-e).toNat - 1) + 1) '0' ++ digits := rfl
    rw [Literal.worth, hzero, decimal_zeros_append, List.length_append, List.length_replicate, Literal.power]
    congr 2
    omega

theorem plain_large {digits : List Char} {e : Int} (h : Significant digits e) (he : 0 ≤ e)
    (hl : digits.length ≤ e.toNat + 1) :
    Writes (digits ++ List.replicate (e.toNat + 1 - digits.length) '0' ++ ['.', '0'])
      (decimal digits * 10 ^ (e + 1 - digits.length)) := by
  obtain ⟨k, hk⟩ : ∃ k, k = e.toNat + 1 - digits.length := ⟨_, rfl⟩
  rw [← hk]
  have hwhole : Literal.WholePart (digits ++ List.replicate k '0') := by
    rcases h.lead with hlead | ⟨rfl, rfl⟩
    · refine .inr ⟨by simp [h.nonempty], h.all.append (digits_zeros k), ?_⟩
      rw [List.head?_append_of_ne_nil _ h.nonempty]
      exact hlead
    · subst hk
      exact .inl rfl
  refine ⟨⟨false, digits ++ List.replicate k '0', ['0'], none⟩, rfl, ?_, ⟨hwhole, ?_, nofun⟩, rfl, ?_⟩
  · simp [Literal.chars, Literal.exponentChars]
  · exact digits_zeros 1
  · have hzeros : digits ++ List.replicate k '0' ++ ['0'] = digits ++ List.replicate (k + 1) '0' := by
      rw [List.append_assoc, List.replicate_succ']
    rw [Literal.worth, hzeros, decimal_append_zeros, Literal.power, Nat.cast_mul, Nat.cast_pow, Nat.cast_ofNat,
      mul_assoc, ← zpow_natCast, ← zpow_add₀ (by norm_num)]
    congr 2
    simp only [List.length_singleton]
    omega

theorem plain_between {digits : List Char} {e : Int} (h : Significant digits e) (he : 0 ≤ e)
    (hl : ¬ digits.length ≤ e.toNat + 1) :
    Writes (digits.take (e.toNat + 1) ++ '.' :: digits.drop (e.toNat + 1))
      (decimal digits * 10 ^ (e + 1 - digits.length)) := by
  have hne : (digits.drop (e.toNat + 1)).isEmpty = false := by
    rw [List.isEmpty_eq_false_iff, ne_eq, List.drop_eq_nil_iff]
    exact hl
  have hwhole : Literal.WholePart (digits.take (e.toNat + 1)) := by
    cases digits with
    | nil => exact absurd rfl h.nonempty
    | cons d rest =>
      refine .inr ⟨by simp, fun c hc => h.all c (List.mem_of_mem_take hc), ?_⟩
      rcases h.lead with hlead | ⟨hone, -⟩
      · exact hlead
      · rw [hone] at hl
        exact absurd (Nat.succ_le_succ (Nat.zero_le _)) hl
  refine ⟨⟨false, digits.take (e.toNat + 1), digits.drop (e.toNat + 1), none⟩, rfl, ?_,
    ⟨hwhole, fun c hc => h.all c (List.mem_of_mem_drop hc), nofun⟩, ?_, ?_⟩
  · simp only [Literal.chars, hne, Bool.false_eq_true, if_false, Literal.exponentChars]
    simp
  · simp only [Literal.isWhole, hne, Bool.false_and]
  · rw [Literal.worth, List.take_append_drop, List.length_drop, Literal.power]
    congr 2
    omega

theorem plain_writes {digits : List Char} {e : Int} (h : Significant digits e) :
    Writes (plainChars digits e) (decimal digits * 10 ^ (e + 1 - digits.length)) := by
  unfold plainChars
  split
  · exact plain_small h ‹_›
  · dsimp only
    split
    · exact plain_large h (by omega) ‹_›
    · exact plain_between h (by omega) ‹_›

theorem scientific_writes {digits : List Char} {e : Int} (h : Significant digits e) :
    Writes (scientificChars digits e) (decimal digits * 10 ^ (e + 1 - digits.length)) := by
  cases digits with
  | nil => exact absurd rfl h.nonempty
  | cons d rest =>
    have hd : Digits [d] := fun c hc => h.all c (List.mem_singleton.1 hc ▸ .head _)
    have hwhole : Literal.WholePart [d] := by
      by_cases hz : d = '0'
      · exact .inl (by rw [hz])
      · exact .inr ⟨by simp, hd, by simpa using hz⟩
    have hpower : Literal.power (some ⟨'e', some (if e < 0 then '-' else '+'), natChars e.natAbs⟩) = e := by
      rw [Literal.power, decimal_natChars]
      by_cases he : e < 0
      · rw [if_pos he, if_pos rfl]
        omega
      · rw [if_neg he, if_neg (by simp)]
        omega
    refine ⟨⟨false, [d], rest, some ⟨'e', some (if e < 0 then '-' else '+'), natChars e.natAbs⟩⟩, rfl, ?_,
      ⟨hwhole, fun c hc => h.all c (.tail _ hc), ?_⟩, by simp [Literal.isWhole], ?_⟩
    · cases rest with
      | nil => rfl
      | cons c rest => simp [Literal.chars, Literal.exponentChars, scientificChars, exponentChars]
    · intro x hx
      obtain rfl := Option.some.inj hx
      refine ⟨.inl rfl, .inr ?_, natChars_ne_nil _, digits_natChars _⟩
      by_cases he : e < 0
      · exact .inr (by rw [if_pos he])
      · exact .inl (by rw [if_neg he])
    · rw [Literal.worth, hpower, List.length_cons]
      congr 2
      push_cast
      omega

/-- Dropping zeros at the end takes away just zeros, and leaves the first digit. -/
theorem dropTrailingZeros_natChars (N : Nat) :
    ∃ n d kept, dropTrailingZeros (natChars N) = d :: kept ∧ natChars N = d :: kept ++ List.replicate n '0' := by
  obtain ⟨d, rest, hall⟩ := List.exists_cons_of_ne_nil (natChars_ne_nil N)
  rw [hall]
  refine ⟨(rest.reverse.takeWhile (· == '0')).length, d, (rest.reverse.dropWhile (· == '0')).reverse, rfl, ?_⟩
  have hzeros : rest.reverse.takeWhile (· == '0') = List.replicate (rest.reverse.takeWhile (· == '0')).length '0' := by
    refine List.eq_replicate_of_mem fun c hc => ?_
    have := List.mem_takeWhile_imp hc
    exact beq_iff_eq.1 this
  rw [List.cons_append, ← List.reverse_replicate, ← hzeros, ← List.reverse_append, List.takeWhile_append_dropWhile,
    List.reverse_reverse]

/-- Only zero has a zero for its decimal, and that without an exponent. -/
theorem shortest_exponent_of_zero {magnitude : Nat} (h : (Binary64.shortest magnitude).digits = 0) :
    (Binary64.shortest magnitude).exponent = 0 := by
  have hworth : (Binary64.shortest magnitude).worth * 2 ^ 1074 = 0 := by
    rw [Decimal.worth, h, Nat.cast_zero, zero_mul, zero_mul]
  have hnear := Binary64.shortest_nearest magnitude
  rw [hworth] at hnear
  obtain rfl := (Binary64.nearest_small (le_refl 0) (by norm_num)).1 hnear
  rfl

/-- What is left of the digits of a number without zeros at their end, written from the same place on. -/
theorem significant_kept {N n : Nat} {E : Int} {d : Char} {kept : List Char}
    (hall : natChars N = d :: kept ++ List.replicate n '0') (hzero : N = 0 → E = 0) :
    Significant (d :: kept) (E + (natChars N).length - 1) := by
  refine ⟨List.cons_ne_nil d kept, fun c hc => digits_natChars N c (hall ▸ List.mem_append_left _ hc), ?_⟩
  by_cases hN : N = 0
  · subst hN
    have hone : ['0'] = d :: (kept ++ List.replicate n '0') := hall
    obtain ⟨rfl, hrest⟩ := List.cons.inj hone
    obtain ⟨rfl, -⟩ := List.append_eq_nil_iff.1 hrest.symm
    obtain rfl : E = 0 := hzero rfl
    exact .inr ⟨rfl, rfl⟩
  · have := head_natChars hN
    rw [hall] at this
    exact .inl this

/-- The zeros at the end of a number's digits say no more than where the digits stand. -/
theorem worth_kept {N n : Nat} {digits : List Char} (hall : natChars N = digits ++ List.replicate n '0') (E : Int) :
    Decimal.worth ⟨N, E⟩ = decimal digits * 10 ^ (E + (natChars N).length - 1 + 1 - digits.length) := by
  have hN : decimal digits * 10 ^ n = N := by
    rw [← decimal_append_zeros, ← hall, decimal_natChars]
  have hlength : (natChars N).length = digits.length + n := by
    rw [hall, List.length_append, List.length_replicate]
  rw [Decimal.worth, hlength]
  simp only [← hN]
  rw [Nat.cast_mul, Nat.cast_pow, Nat.cast_ofNat, mul_assoc, ← zpow_natCast, ← zpow_add₀ (by norm_num)]
  congr 2
  push_cast
  omega

theorem magnitude_writes (magnitude : Nat) : Writes (magnitudeChars magnitude) (Binary64.shortest magnitude).worth := by
  have hzero := @shortest_exponent_of_zero magnitude
  simp only [magnitudeChars]
  generalize Binary64.shortest magnitude = decimal' at *
  obtain ⟨N, E⟩ := decimal'
  obtain ⟨n, d, kept, hkept, hall⟩ := dropTrailingZeros_natChars N
  have hsignificant := significant_kept hall hzero
  rw [worth_kept hall, hkept]
  split
  · exact plain_writes hsignificant
  · exact scientific_writes hsignificant

/-- The text of a number spells just that number. -/
theorem chars_spelled (n : Number) : ∃ l : Literal, l.chars = n.chars ∧ l.Proper ∧ l.Names n := by
  cases n with
  | integer n =>
    have hintegral : Literal.integral ⟨decide (n.val < 0), natChars n.val.natAbs, [], none⟩ = n.val := by
      simp only [Literal.integral, decimal_natChars, decide_eq_true_eq]
      split
      · omega
      · omega
    refine ⟨⟨decide (n.val < 0), natChars n.val.natAbs, [], none⟩, ?_,
      ⟨wholePart_natChars _, Digits.nil, nofun⟩, .integer n ⟨rfl, ?_, ?_⟩ hintegral.symm⟩
    · simp only [Literal.chars, Literal.exponentChars, chars, intChars, List.isEmpty_nil, if_true, List.append_nil,
        decide_eq_true_eq]
      split
      · rfl
      · rfl
    · rw [hintegral]
      exact n.lower
    · rw [hintegral]
      exact n.upper
  | real x =>
    obtain ⟨l, hsign, hchars, hproper, hwhole, hworth⟩ := magnitude_writes x.magnitude
    refine ⟨{ l with negative := x.negative }, ?_, ⟨hproper.whole, hproper.fraction, hproper.exponent⟩,
      .real x ?_ rfl ?_⟩
    · simp only [Literal.chars, hsign, Bool.false_eq_true, if_false, List.nil_append] at hchars
      simp only [Literal.chars, chars]
      rw [← hchars]
      cases x.negative with
      | true => simp
      | false => simp
    · rintro ⟨hw, -⟩
      exact absurd (hwhole.symm.trans hw) (by decide)
    · have : Literal.worth { l with negative := x.negative } = l.worth := rfl
      rw [this, hworth]
      exact Binary64.shortest_nearest x.magnitude

end Number

end Reshape
