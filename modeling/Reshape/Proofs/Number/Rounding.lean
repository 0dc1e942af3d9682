/-
  Reshape.Proofs.Number.Rounding — the magnitude nearest to a number.

  `Nearest v m` says that no magnitude is nearer to `v` than `m`, and that `m` is even where
  another is as near; `v` is a rational in units of 2^-1074. There is exactly one such
  magnitude (`Nearest.unique`), and `roundRatio` finds it (`roundRatio_eq_iff`). Magnitudes
  go on beyond the finite ones as if the format did, so a number is out of range exactly
  when its nearest magnitude is.

  - A magnitude is a number `n` of steps of `2 ^ shift` units, where `n` has 53 bits unless
    the step is the smallest one (`exists_steps`, `units_steps`).
  - `units_le_gap`: two magnitudes are at least 2^-53 of either apart, so a number that is
    closer than half of that to a magnitude is nearest to it (`nearest_of_close`).
-/

import Mathlib.Algebra.Order.Field.Power
import Mathlib.Algebra.Order.Field.Rat
import Mathlib.Tactic.FieldSimp
import Mathlib.Tactic.Linarith
import Mathlib.Tactic.Positivity
import Mathlib.Tactic.Ring
import Reshape.Number.Binary64

namespace Reshape

theorem twoTo_eq (n : Nat) : twoTo n = 2 ^ n := rfl

theorem tenTo_eq (n : Nat) : tenTo n = 10 ^ n := rfl

theorem twoTo_pos (n : Nat) : 0 < twoTo n := Nat.pow_pos (by decide)

theorem tenTo_pos (n : Nat) : 0 < tenTo n := Nat.pow_pos (by decide)

namespace Binary64

/-! ## Magnitudes as steps -/

/-- A number of steps that is a magnitude: 53 bits of them, or fewer of the smallest. The first number with
    54 bits is a magnitude too, of the next coarser steps. -/
def Stepped (shift n : Nat) : Prop := n ≤ 2 * binade ∧ (shift = 0 ∨ binade ≤ n)

theorem exists_steps (m : Nat) : ∃ shift n, m = shift * binade + n ∧ n < 2 * binade ∧ (shift = 0 ∨ binade ≤ n) := by
  by_cases h : m < binade
  · exact ⟨0, m, by omega, by omega, .inl rfl⟩
  · have hq : 1 ≤ m / binade := (Nat.one_le_div_iff (by decide)).2 (by omega)
    have hm : m % binade < binade := Nat.mod_lt _ (by decide)
    refine ⟨m / binade - 1, m % binade + binade, ?_, by omega, .inr (by omega)⟩
    have := Nat.div_add_mod m binade
    rw [Nat.sub_mul, Nat.one_mul, Nat.mul_comm]
    have : binade ≤ binade * (m / binade) := Nat.le_mul_of_pos_right _ hq
    omega

theorem units_steps {shift n : Nat} (h : Stepped shift n) : units (shift * binade + n) = n * twoTo shift := by
  obtain ⟨hn, hs⟩ := h
  have hb : 0 < binade := by decide
  unfold units
  generalize binade = b at *
  rcases Nat.lt_trichotomy n b with hlt | rfl | hgt
  · obtain rfl : shift = 0 := by omega
    rw [Nat.zero_mul, Nat.zero_add, if_pos hlt]
    exact (Nat.mul_one n).symm
  · rw [if_neg (by omega), ← Nat.succ_mul, Nat.mul_mod_left, Nat.mul_div_cancel _ hb, Nat.zero_add]
    rfl
  · rw [if_neg (by omega)]
    rcases Nat.lt_or_ge n (2 * b) with hlt | hge
    · have e : shift * b + n = (n - b) + (shift + 1) * b := by rw [Nat.succ_mul]; omega
      rw [e, Nat.add_mul_mod_self_right, Nat.add_mul_div_right _ _ hb, Nat.mod_eq_of_lt (by omega),
        Nat.div_eq_of_lt (by omega), Nat.sub_add_cancel (by omega), Nat.zero_add]
      rfl
    · obtain rfl : n = 2 * b := by omega
      rw [← Nat.add_mul, Nat.mul_mod_left, Nat.mul_div_cancel _ hb, Nat.zero_add, twoTo_eq, twoTo_eq,
        show shift + 2 - 1 = shift + 1 from rfl, Nat.pow_succ]
      ring

/-- The magnitude above is at least a step away. -/
theorem units_above {shift n : Nat} (h : Stepped shift n) :
    (n + 1) * twoTo shift ≤ units (shift * binade + n + 1) := by
  have hb : 1 ≤ binade := by decide
  obtain ⟨hn, hs⟩ := h
  rcases Nat.lt_or_ge n (2 * binade) with hlt | hge
  · rw [Nat.add_assoc, units_steps ⟨hlt, by omega⟩]
  · have e : shift * binade + n + 1 = (shift + 1) * binade + (binade + 1) := by rw [Nat.succ_mul]; omega
    rw [e, units_steps ⟨by omega, .inr (by omega)⟩, twoTo_eq, twoTo_eq, Nat.pow_succ]
    obtain rfl : n = 2 * binade := by omega
    generalize binade = b
    generalize 2 ^ shift = t
    linarith [Nat.zero_le t]

theorem units_lt_succ (m : Nat) : units m < units (m + 1) := by
  obtain ⟨shift, n, rfl, hn, hs⟩ := exists_steps m
  rw [units_steps ⟨hn.le, hs⟩]
  exact lt_of_lt_of_le (Nat.mul_lt_mul_of_pos_right (Nat.lt_succ_self n) (twoTo_pos shift)) (units_above ⟨hn.le, hs⟩)

theorem units_strictMono : StrictMono units := strictMono_nat_of_lt_succ units_lt_succ

@[simp] theorem units_lt_units {m k : Nat} : units m < units k ↔ m < k := units_strictMono.lt_iff_lt

@[simp] theorem units_le_units {m k : Nat} : units m ≤ units k ↔ m ≤ k := units_strictMono.le_iff_le

@[simp] theorem units_zero : units 0 = 0 := rfl

/-- A magnitude below is at least a step away, where the steps below are no finer. -/
theorem units_below {shift n k : Nat} (hs : Stepped shift n) (hn : shift = 0 ∨ binade < n)
    (hk : k < shift * binade + n) : units k + twoTo shift ≤ n * twoTo shift := by
  have hb : 1 ≤ binade := by decide
  obtain ⟨p, rfl⟩ : ∃ p, n = p + 1 := Nat.exists_eq_succ_of_ne_zero <| by
    rintro rfl
    rcases hn with rfl | h
    · exact absurd hk (by simp)
    · omega
  have hp : units (shift * binade + p) = p * twoTo shift := units_steps ⟨by have := hs.1; omega, by omega⟩
  have : units k ≤ units (shift * binade + p) := units_le_units.2 (by omega)
  rw [Nat.succ_mul]
  omega

/-- Below the least number of steps of a size the steps are half as long. -/
theorem units_below_least {shift k : Nat} (hk : k < (shift + 1) * binade + binade) :
    units k + twoTo shift ≤ binade * twoTo (shift + 1) := by
  have hb : 1 ≤ binade := by decide
  have hs : Stepped shift (2 * binade) := ⟨Nat.le_refl _, .inr (by omega)⟩
  have := units_below hs (.inr (by omega)) (k := k) (by rw [Nat.succ_mul] at hk; omega)
  rw [twoTo_eq] at this ⊢
  rw [twoTo_eq, Nat.pow_succ]
  linarith

/-- Every distance from a magnitude to another is at least 2^-53 of it. -/
theorem units_le_gap {m k : Nat} (h : m ≠ k) : (units m : Rat) ≤ |(units k : Rat) - units m| * 2 ^ 53 := by
  obtain ⟨shift, n, rfl, hn, hs⟩ := exists_steps m
  have hu : (units (shift * binade + n) : Rat) = n * 2 ^ shift := by
    rw [units_steps ⟨hn.le, hs⟩, twoTo_eq]; push_cast; rfl
  have hb : (binade : Rat) = 2 ^ 52 := by rw [binade]; norm_num
  have ht : (0 : Rat) < 2 ^ shift := by positivity
  have hn' : (n : Rat) < 2 * 2 ^ 52 := by rw [← hb]; exact_mod_cast hn
  rcases Nat.lt_or_gt_of_ne h with hlt | hgt
  · have habove : ((n + 1) * 2 ^ shift : Rat) ≤ units k := by
      have := (units_above ⟨hn.le, hs⟩).trans (units_le_units.2 (Nat.succ_le_of_lt hlt))
      rw [twoTo_eq] at this
      exact_mod_cast this
    have := le_abs_self ((units k : Rat) - units (shift * binade + n))
    rw [hu] at *
    nlinarith
  · have hfar := neg_le_abs ((units k : Rat) - units (shift * binade + n))
    rw [hu] at *
    by_cases hl : shift = 0 ∨ binade < n
    · have hbelow : (units k + 2 ^ shift : Rat) ≤ n * 2 ^ shift := by
        have := units_below ⟨hn.le, hs⟩ hl hgt
        rw [twoTo_eq] at this
        exact_mod_cast this
      nlinarith
    · obtain ⟨s, rfl⟩ := Nat.exists_eq_succ_of_ne_zero (show shift ≠ 0 by omega)
      obtain rfl : n = binade := by omega
      have hbelow : (units k + 2 ^ s : Rat) ≤ binade * 2 ^ (s + 1) := by
        have := units_below_least hgt
        rw [twoTo_eq, twoTo_eq] at this
        exact_mod_cast this
      rw [hb, Nat.succ_eq_add_one] at *
      rw [pow_succ (2 : Rat) s] at *
      linarith

/-! ## Rounding a quotient -/

theorem divNearest_near (num : Nat) {den : Nat} (hd : 0 < den) :
    |(num : Rat) / den - divNearest num den| ≤ 1 / 2 ∧
      (|(num : Rat) / den - divNearest num den| = 1 / 2 → divNearest num den % 2 = 0) := by
  have hd' : (0 : Rat) < den := by exact_mod_cast hd
  have hdiv : (den * (num / den : Nat) + (num % den : Nat) : Rat) = num := by exact_mod_cast Nat.div_add_mod num den
  have hmod : ((num % den : Nat) : Rat) < den := by exact_mod_cast Nat.mod_lt num hd
  have hnum : (num : Rat) / den = (num / den : Nat) + (num % den : Nat) / den := by
    rw [← hdiv]; field_simp
  have hfrac : 0 ≤ ((num % den : Nat) : Rat) / den := by positivity
  rw [hnum]
  simp only [divNearest]
  generalize num / den = low at *
  generalize num % den = part at *
  split
  · rename_i h
    have hhalf : (part : Rat) / den ≤ 1 / 2 ∧ ((part : Rat) / den = 1 / 2 → 2 * part = den) := by
      rw [div_le_div_iff₀ hd' two_pos, div_eq_div_iff hd'.ne' two_ne_zero]
      exact ⟨by exact_mod_cast (by omega : part * 2 ≤ 1 * den), fun he => by
        have : part * 2 = 1 * den := by exact_mod_cast he
        omega⟩
    rw [add_sub_cancel_left, abs_of_nonneg hfrac]
    exact ⟨hhalf.1, fun he => by have := hhalf.2 he; omega⟩
  · rename_i h
    have hhalf : 1 / 2 ≤ (part : Rat) / den ∧ ((part : Rat) / den = 1 / 2 → 2 * part = den) := by
      rw [div_le_div_iff₀ two_pos hd', div_eq_div_iff hd'.ne' two_ne_zero]
      exact ⟨by exact_mod_cast (by omega : 1 * den ≤ part * 2), fun he => by
        have : part * 2 = 1 * den := by exact_mod_cast he
        omega⟩
    have hone : (part : Rat) / den < 1 := (div_lt_one hd').2 hmod
    have e : (low : Rat) + part / den - (low + 1 : Nat) = -(1 - part / den) := by push_cast; ring
    rw [e, abs_neg, abs_of_pos (by linarith)]
    exact ⟨by linarith [hhalf.1], fun he => by have := hhalf.2 (by linarith); omega⟩

/-! ## The nearest magnitude -/

/-- No magnitude is nearer to `v` units than `m`, and `m` is even where another is as near. -/
def Nearest (v : Rat) (m : Nat) : Prop :=
  ∀ k, |v - units m| ≤ |v - units k| ∧ (k ≠ m → |v - units m| = |v - units k| → m % 2 = 0)

theorem Nearest.unique {v : Rat} {m k : Nat} (hm : Nearest v m) (hk : Nearest v k) : m = k := by
  by_contra hne
  wlog hlt : m < k generalizing m k
  · exact this hk hm (Ne.symm hne) (by omega)
  have he : |v - units m| = |v - units k| := le_antisymm (hm k).1 (hk m).1
  have hparity : m % 2 = 0 ∧ k % 2 = 0 := ⟨(hm k).2 (Ne.symm hne) he, (hk m).2 hne he.symm⟩
  -- the two are on either side of `v`, so the odd one between them is nearer
  have h₁ : (units m : Rat) < units (m + 1) := by exact_mod_cast units_lt_succ m
  have h₂ : (units (m + 1) : Rat) < units k := by exact_mod_cast units_lt_units.2 (by omega)
  have hmid := (hm (m + 1)).1
  rcases abs_cases (v - units m) with ⟨h, _⟩ | ⟨h, _⟩ <;> rcases abs_cases (v - units k) with ⟨h', _⟩ | ⟨h', _⟩ <;>
    rcases abs_cases (v - units (m + 1)) with ⟨h'', _⟩ | ⟨h'', _⟩ <;> linarith

theorem Nearest.of_lt {v : Rat} {m : Nat} (h : ∀ k, k ≠ m → |v - units m| < |v - units k|) : Nearest v m := by
  intro k
  by_cases hk : k = m
  · exact ⟨by rw [hk], fun h => absurd hk h⟩
  · exact ⟨(h k hk).le, fun _ he => absurd he (h k hk).ne⟩

theorem nearest_of_close {v : Rat} {m : Nat} (h : |v - units m| * 2 ^ 54 < units m) : Nearest v m := by
  refine Nearest.of_lt fun k hk => ?_
  have := units_le_gap (Ne.symm hk)
  have : |(units k : Rat) - units m| ≤ |v - units m| + |v - units k| := by
    have := abs_sub_le (units k : Rat) v (units m)
    rw [abs_sub_comm (units k : Rat) v] at this
    linarith
  linarith

theorem nearest_steps {v : Rat} {shift n : Nat} (hs : Stepped shift n) (hv : |v - n * 2 ^ shift| ≤ 2 ^ shift / 2)
    (he : |v - n * 2 ^ shift| = 2 ^ shift / 2 → n % 2 = 0) (hb : shift ≠ 0 → n = binade → n * 2 ^ shift ≤ v) :
    Nearest v (shift * binade + n) := by
  have ht : (0 : Rat) < 2 ^ shift := by positivity
  have hu : (units (shift * binade + n) : Rat) = n * 2 ^ shift := by
    rw [units_steps hs, twoTo_eq]; push_cast; rfl
  have heven : n % 2 = 0 → (shift * binade + n) % 2 = 0 := by
    have : binade % 2 = 0 := by decide
    intro h
    rw [Nat.add_mod, Nat.mul_mod, this, h, Nat.mul_zero]
  obtain ⟨hlow, hhigh⟩ := abs_le.1 hv
  intro k
  rw [hu]
  rcases Nat.lt_trichotomy k (shift * binade + n) with hlt | rfl | hgt
  · by_cases hl : shift = 0 ∨ binade < n
    · have hbelow : (units k + 2 ^ shift : Rat) ≤ n * 2 ^ shift := by
        have := units_below hs hl hlt
        rw [twoTo_eq] at this
        exact_mod_cast this
      have hfar : (2 ^ shift / 2 : Rat) ≤ |v - units k| := le_trans (by linarith) (le_abs_self _)
      refine ⟨hv.trans hfar, fun _ h => ?_⟩
      exact heven (he (le_antisymm hv (h ▸ hfar)))
    · have hge := hb (by omega) (by have := hs.2; omega)
      have hunder : (units k : Rat) < n * 2 ^ shift := by
        rw [← hu]; exact_mod_cast units_lt_units.2 hlt
      rw [abs_of_nonneg (by linarith), abs_of_nonneg (by linarith)]
      exact ⟨by linarith, fun _ h => by linarith⟩
  · rw [hu]
    exact ⟨le_rfl, fun h => absurd rfl h⟩
  · have habove : ((n + 1) * 2 ^ shift : Rat) ≤ units k := by
      have := (units_above hs).trans (units_le_units.2 (Nat.succ_le_of_lt hgt))
      rw [twoTo_eq] at this
      exact_mod_cast this
    have hfar : (2 ^ shift / 2 : Rat) ≤ |v - units k| := le_trans (by linarith) (neg_le_abs _)
    refine ⟨hv.trans hfar, fun _ h => ?_⟩
    exact heven (he (le_antisymm hv (h ▸ hfar)))

/-- The step that `roundRatio` takes for numbers of this size: 53 bits are before the point, or it is the smallest. -/
theorem step_bounds (n : Nat) :
    n < 2 ^ 53 * 2 ^ (n.log2 - 52) ∧ (n.log2 - 52 ≠ 0 → 2 ^ 52 * 2 ^ (n.log2 - 52) ≤ n) := by
  rw [← Nat.pow_add, ← Nat.pow_add]
  refine ⟨Nat.lt_log2_self.trans_le (Nat.pow_le_pow_right two_pos (by omega)), fun h => ?_⟩
  rw [show 52 + (n.log2 - 52) = n.log2 by omega]
  exact Nat.log2_self_le (by rintro rfl; exact h (by decide))

/-- Measured in such steps, a quotient is below `2^53`, and not below `2^52` but in the smallest steps. -/
theorem inSteps_bounds (num : Nat) {den shift : Nat} (hd : 0 < den) (hs : (num / den).log2 - 52 = shift) :
    (num / (den * twoTo shift : Nat) : Rat) < 2 ^ 53 ∧ (shift ≠ 0 → 2 ^ 52 ≤ (num / (den * twoTo shift : Nat) : Rat)) := by
  have hpos : (0 : Rat) < (den * twoTo shift : Nat) := by exact_mod_cast Nat.mul_pos hd (twoTo_pos shift)
  obtain ⟨hhigh, hlow⟩ := step_bounds (num / den)
  rw [hs] at hhigh hlow
  rw [div_lt_iff₀ hpos, le_div_iff₀ hpos, twoTo_eq]
  refine ⟨?_, fun h => ?_⟩
  · have : num < den * (2 ^ 53 * 2 ^ shift) :=
      (Nat.lt_mul_div_succ num hd).trans_le (Nat.mul_le_mul_left den hhigh)
    exact_mod_cast (by linarith : num < 2 ^ 53 * (den * 2 ^ shift))
  · have : 2 ^ 52 * 2 ^ shift * den ≤ num := (Nat.mul_le_mul_right den (hlow h)).trans (Nat.div_mul_le_self num den)
    exact_mod_cast (by linarith : 2 ^ 52 * (den * 2 ^ shift) ≤ num)

/-- The whole number of steps nearest to `x` steps gives the nearest magnitude, if the steps fit the size of `x`. -/
theorem nearest_rounded {x : Rat} {shift n : Nat} (hnear : |x - n| ≤ 1 / 2) (heven : |x - n| = 1 / 2 → n % 2 = 0)
    (hhigh : x < 2 ^ 53) (hlow : shift ≠ 0 → 2 ^ 52 ≤ x) : Nearest (x * 2 ^ shift) (shift * binade + n) := by
  have ht : (0 : Rat) < 2 ^ shift := by positivity
  have hb : (binade : Rat) = 2 ^ 52 := by rw [binade]; norm_num
  have hdist : |x * 2 ^ shift - n * 2 ^ shift| = |x - n| * 2 ^ shift := by
    rw [← sub_mul, abs_mul, abs_of_pos ht]
  obtain ⟨h₁, h₂⟩ := abs_le.1 hnear
  refine nearest_steps ⟨?_, ?_⟩ ?_ (fun h => heven ?_) fun hs hn => ?_
  · have : (n : Rat) < 2 * binade + 1 := by rw [hb]; linarith
    exact Nat.lt_succ_iff.1 (by exact_mod_cast this)
  · refine or_iff_not_imp_left.2 fun hs => ?_
    have : (binade : Rat) < n + 1 := by rw [hb]; linarith [hlow hs]
    exact Nat.lt_succ_iff.1 (by exact_mod_cast this)
  · rw [hdist]
    linarith [mul_le_mul_of_nonneg_right hnear ht.le]
  · rw [hdist] at h
    exact mul_right_cancel₀ ht.ne' (by linarith)
  · rw [hn, hb]
    exact mul_le_mul_of_nonneg_right (hlow hs) ht.le

theorem roundRatio_nearest (num : Nat) {den : Nat} (hd : 0 < den) :
    Nearest (num * 2 ^ 1074 / den) (roundRatio num den) := by
  have hscaled : (num * 2 ^ 1074 : Rat) = (num * twoTo 1074 : Nat) := by
    rw [twoTo_eq, Nat.cast_mul, Nat.cast_pow, Nat.cast_ofNat]
  simp only [roundRatio]
  rw [hscaled]
  generalize num * twoTo 1074 = scaled
  generalize hshift : (scaled / den).log2 - 52 = shift
  have hd' : (0 : Rat) < den := by exact_mod_cast hd
  have hv : (scaled / den : Rat) = scaled / (den * twoTo shift : Nat) * 2 ^ shift := by
    push_cast [twoTo_eq]
    field_simp
  obtain ⟨hhigh, hlow⟩ := inSteps_bounds scaled hd hshift
  obtain ⟨hnear, heven⟩ := divNearest_near scaled (Nat.mul_pos hd (twoTo_pos shift))
  rw [hv]
  exact nearest_rounded hnear heven hhigh hlow

theorem roundRatio_eq_iff {num den m : Nat} (hd : 0 < den) :
    roundRatio num den = m ↔ Nearest (num * 2 ^ 1074 / den) m :=
  ⟨fun h => h ▸ roundRatio_nearest num hd, fun h => (roundRatio_nearest num hd).unique h⟩

/-! ## Numbers from decimals -/

theorem ofRatio?_eq_some_iff {negative : Bool} {num den : Nat} (hd : 0 < den) {x : Binary64} :
    ofRatio? negative num den = some x ↔ x.negative = negative ∧ Nearest (num * 2 ^ 1074 / den) x.magnitude := by
  rw [← roundRatio_eq_iff hd, ofRatio?]
  constructor
  · intro h
    split at h
    · obtain rfl := Option.some.inj h
      exact ⟨rfl, rfl⟩
    · cases h
  · rintro ⟨rfl, h⟩
    simp only [h, x.finite, dite_true]

/-- What is less than half a unit is nearest to nothing but zero. -/
theorem nearest_small {v : Rat} (h₀ : 0 ≤ v) (h : v < 1 / 2) {m : Nat} : Nearest v m ↔ m = 0 := by
  have hz : Nearest v 0 := Nearest.of_lt fun k hk => by
    have hk : (1 : Rat) ≤ units k := by exact_mod_cast units_lt_units.2 (Nat.pos_of_ne_zero hk)
    rw [units_zero, Nat.cast_zero, sub_zero, abs_of_nonneg h₀]
    exact lt_of_lt_of_le (by linarith) (neg_le_abs _)
  exact ⟨fun hm => hm.unique hz, fun hm => hm ▸ hz⟩

/-- What is beyond the first infinite magnitude is nearest to no finite one. -/
theorem not_nearest_large {v : Rat} (h : units firstInfinite ≤ v) {m : Nat} (hm : m < firstInfinite) :
    ¬ Nearest v m := by
  intro hn
  have hlt : (units m : Rat) < units firstInfinite := by exact_mod_cast units_lt_units.2 hm
  have := (hn firstInfinite).1
  rw [abs_of_nonneg (by linarith), abs_of_nonneg (by linarith)] at this
  linarith

/-- The number of digits of a number tells its size. -/
theorem toDigits_bounds {n : Nat} (hn : n ≠ 0) :
    10 ^ ((Nat.toDigits 10 n).length - 1) ≤ n ∧ n < 10 ^ (Nat.toDigits 10 n).length := by
  have hpos : 0 < (Nat.toDigits 10 n).length := List.length_pos_iff.2 Nat.toDigits_ne_nil
  refine ⟨?_, (Nat.length_toDigits_le_iff (by decide) hpos).1 (Nat.le_refl _)⟩
  by_contra hlt
  rcases Nat.eq_zero_or_pos ((Nat.toDigits 10 n).length - 1) with h | h
  · rw [h] at hlt; omega
  · have := (Nat.length_toDigits_le_iff (by decide) h).2 (Nat.lt_of_not_le hlt)
    omega

/-- Half a unit is more than `10^-401`. -/
theorem tenth_small : (10 : Rat) ^ (-401 : Int) * 2 ^ 1074 < 1 / 2 := by
  have h : (2 ^ 1074 * 2 : Rat) < 10 ^ 401 := by exact_mod_cast (by decide +kernel : 2 ^ 1074 * 2 < 10 ^ 401)
  rw [zpow_neg, inv_mul_lt_iff₀ (by positivity), ← div_eq_mul_one_div, lt_div_iff₀ two_pos]
  exact_mod_cast h

theorem firstInfinite_small : (units firstInfinite : Rat) ≤ 10 ^ (400 : Int) * 2 ^ 1074 := by
  exact_mod_cast (by decide +kernel : units firstInfinite ≤ 10 ^ 400 * 2 ^ 1074)

theorem decimal_small {digits : Nat} {exponent : Int}
    (h : digits = 0 ∨ ((Nat.toDigits 10 digits).length : Int) + exponent < -400) :
    (digits * 10 ^ exponent * 2 ^ 1074 : Rat) < 1 / 2 := by
  by_cases hz : digits = 0
  · simp [hz]
  · have hsize := h.resolve_left hz
    have hd : (digits : Rat) < 10 ^ ((Nat.toDigits 10 digits).length : Int) := by
      exact_mod_cast (toDigits_bounds hz).2
    calc (digits * 10 ^ exponent * 2 ^ 1074 : Rat)
        ≤ 10 ^ ((Nat.toDigits 10 digits).length : Int) * 10 ^ exponent * 2 ^ 1074 := by gcongr
      _ = 10 ^ (((Nat.toDigits 10 digits).length : Int) + exponent) * 2 ^ 1074 := by
        rw [zpow_add₀ (by norm_num)]
      _ ≤ 10 ^ (-401 : Int) * 2 ^ 1074 := by
        gcongr
        · norm_num
        · omega
      _ < 1 / 2 := tenth_small

theorem decimal_large {digits : Nat} {exponent : Int} (hz : digits ≠ 0)
    (h : 400 < ((Nat.toDigits 10 digits).length : Int) + exponent) :
    (units firstInfinite : Rat) ≤ digits * 10 ^ exponent * 2 ^ 1074 := by
  have hd : (10 : Rat) ^ (((Nat.toDigits 10 digits).length - 1 : Nat) : Int) ≤ digits := by
    exact_mod_cast (toDigits_bounds hz).1
  calc (units firstInfinite : Rat) ≤ 10 ^ (400 : Int) * 2 ^ 1074 := firstInfinite_small
    _ ≤ 10 ^ ((((Nat.toDigits 10 digits).length - 1 : Nat) : Int) + exponent) * 2 ^ 1074 := by
      gcongr
      · norm_num
      · omega
    _ = 10 ^ (((Nat.toDigits 10 digits).length - 1 : Nat) : Int) * 10 ^ exponent * 2 ^ 1074 := by
      rw [zpow_add₀ (by norm_num)]
    _ ≤ digits * 10 ^ exponent * 2 ^ 1074 := by gcongr

/-- A decimal is read to the number nearest to it, if that is finite. -/
theorem ofDecimal?_eq_some_iff {negative : Bool} {digits : Nat} {exponent : Int} {x : Binary64} :
    ofDecimal? negative digits exponent = some x ↔
      x.negative = negative ∧ Nearest (digits * 10 ^ exponent * 2 ^ 1074) x.magnitude := by
  simp only [ofDecimal?]
  split
  · rename_i h
    rw [ofRatio?_eq_some_iff Nat.one_pos, nearest_small (by positivity) (decimal_small h),
      nearest_small (by simp) (by simp)]
  · rename_i h
    obtain ⟨hz, -⟩ := not_or.1 h
    split
    · rename_i h
      simp only [reduceCtorEq, false_iff, not_and]
      exact fun _ => not_nearest_large (decimal_large hz h) x.finite
    · split
      · rename_i h
        obtain ⟨e, rfl⟩ := Int.eq_ofNat_of_zero_le h
        rw [ofRatio?_eq_some_iff Nat.one_pos, Int.toNat_natCast, tenTo_eq, zpow_natCast]
        push_cast
        rw [div_one]
      · rename_i h
        obtain ⟨e, rfl⟩ := Int.exists_eq_neg_ofNat (Int.le_of_lt (Int.not_le.1 h))
        rw [ofRatio?_eq_some_iff (tenTo_pos _), Int.neg_neg, Int.toNat_natCast, tenTo_eq, zpow_neg, zpow_natCast]
        push_cast
        rw [div_eq_mul_inv, mul_right_comm]

end Binary64

end Reshape
