/-
  Reshape.Proofs.Path.Patterns — what patterns match.

  `Matches p before text behind` says what a pattern means without saying how it is found
  out: the text between the characters `before` and `behind` is one that the pattern
  describes. The anchors make the two neighbours part of the meaning; where a text is cut
  in two, each part is the other's neighbour.
  - `nullable_iff` and `derive_iff`: the two steps of matching, by induction on the pattern.
  - `matchesPart_iff`: a pattern is found in a text exactly if some part of the text, told
    with its neighbours, is what the pattern means.
  - `matches_repeated`: a count asks for as many matches in a row as it allows.
-/

import Mathlib.Data.List.Basic
import Reshape.Path.Pattern

namespace Reshape.Path.Pattern

/-- The pattern describes a text that stands between two characters, or at an end where there is none. -/
inductive Matches : Pattern → Option Char → List Char → Option Char → Prop
  | empty {before behind} : Matches .empty before [] behind
  | char {k c before behind} (h : k.contains c = true) : Matches (.char k) before [c] behind
  | place {a before behind} (h : a.holds before behind = true) : Matches (.place a) before [] behind
  | seq {p q before s t behind} (hp : Matches p before s (t.head?.or behind))
      (hq : Matches q (s.getLast?.or before) t behind) : Matches (.seq p q) before (s ++ t) behind
  | left {p q before s behind} (h : Matches p before s behind) : Matches (.or p q) before s behind
  | right {p q before s behind} (h : Matches q before s behind) : Matches (.or p q) before s behind
  | once {p before s behind} (h : Matches p before s behind) : Matches (.more p) before s behind
  | again {p before s t behind} (hp : Matches p before s (t.head?.or behind))
      (hmore : Matches (.more p) (s.getLast?.or before) t behind) : Matches (.more p) before (s ++ t) behind

inductive InRow : Pattern → Nat → Option Char → List Char → Option Char → Prop
  | none {p before behind} : InRow p 0 before [] behind
  | next {p n before s t behind} (hp : Matches p before s (t.head?.or behind))
      (hrow : InRow p n (s.getLast?.or before) t behind) : InRow p (n + 1) before (s ++ t) behind

variable {p q : Pattern} {before behind : Option Char} {c : Char} {w : List Char}

/-! ## Constructor by constructor -/

@[simp] theorem matches_nothing : ¬ Matches .nothing before w behind := nofun

@[simp] theorem matches_empty : Matches .empty before w behind ↔ w = [] :=
  ⟨fun | .empty => rfl, fun h => h ▸ .empty⟩

@[simp] theorem matches_char {k : CharClass} : Matches (.char k) before w behind ↔ ∃ c, k.contains c ∧ w = [c] :=
  ⟨fun | .char h => ⟨_, h, rfl⟩, fun ⟨_, h, hw⟩ => hw ▸ .char h⟩

@[simp] theorem matches_place {a : Anchor} : Matches (.place a) before w behind ↔ a.holds before behind ∧ w = [] :=
  ⟨fun | .place h => ⟨h, rfl⟩, fun ⟨h, hw⟩ => hw ▸ .place h⟩

theorem matches_seq : Matches (.seq p q) before w behind ↔ ∃ s t, w = s ++ t ∧
    Matches p before s (t.head?.or behind) ∧ Matches q (s.getLast?.or before) t behind :=
  ⟨fun | .seq hp hq => ⟨_, _, rfl, hp, hq⟩, fun ⟨_, _, hw, hp, hq⟩ => hw ▸ .seq hp hq⟩

@[simp] theorem matches_or :
    Matches (.or p q) before w behind ↔ Matches p before w behind ∨ Matches q before w behind :=
  ⟨fun | .left h => .inl h | .right h => .inr h, fun h => h.elim .left .right⟩

theorem matches_many : Matches p.many before w behind ↔ w = [] ∨ Matches (.more p) before w behind := by
  rw [many, matches_or, matches_empty]

/-! ## Shorter writing -/

theorem matches_branches : (∃ r ∈ p.branches, Matches r before w behind) ↔ Matches p before w behind := by
  induction p with
  | nothing => simp [branches]
  | or a b iha ihb =>
    rw [matches_or, ← iha, ← ihb]
    simp only [branches, List.mem_append, or_and_right, exists_or]
  | _ => simp [branches]

theorem matches_ofBranches {rs : List Pattern} :
    Matches (ofBranches rs) before w behind ↔ ∃ r ∈ rs, Matches r before w behind := by
  fun_induction ofBranches rs with
  | case1 => simp
  | case2 r => simp
  | case3 r rest _ ih => simp only [matches_or, ih, List.exists_mem_cons_iff]

@[simp] theorem matches_either :
    Matches (p.either q) before w behind ↔ Matches p before w behind ∨ Matches q before w behind := by
  rw [either, matches_ofBranches, ← matches_branches (p := p), ← matches_branches (p := q)]
  constructor
  · intro ⟨r, hr, hm⟩
    rcases List.mem_append.mp hr with hr | hr
    · exact .inl ⟨r, hr, hm⟩
    · exact .inr ⟨r, (List.mem_filter.mp hr).1, hm⟩
  · intro h
    rcases h with ⟨r, hr, hm⟩ | ⟨r, hr, hm⟩
    · exact ⟨r, List.mem_append_left _ hr, hm⟩
    · -- the branch is left out only where the first choice has it
      by_cases hin : r ∈ p.branches
      · exact ⟨r, List.mem_append_left _ hin, hm⟩
      · exact ⟨r, List.mem_append_right _ (List.mem_filter.mpr ⟨hr, by simpa using hin⟩), hm⟩

theorem matches_followedBy : Matches (p.followedBy q) before w behind ↔ Matches (.seq p q) before w behind := by
  cases p with
  | nothing => simp [followedBy, matches_seq]
  | empty => simp [followedBy, matches_seq]
  | _ => rfl

/-! ## Steps -/

theorem matches_more_nil : Matches (.more p) before [] behind ↔ Matches p before [] behind := by
  constructor
  · intro h
    generalize hr : Pattern.more p = r, hw : ([] : List Char) = w at h
    induction h with
    | once h => cases hr; exact hw ▸ h
    | again hp hmore _ ih =>
      cases hr
      obtain ⟨rfl, rfl⟩ := List.append_eq_nil_iff.mp hw.symm
      exact hp
    | _ => cases hr
  · exact .once

theorem nullable_iff : p.nullable before behind = true ↔ Matches p before [] behind := by
  induction p with
  | nothing => simp [nullable]
  | empty => simp [nullable]
  | char k => simp [nullable]
  | place a => simp [nullable]
  | seq a b iha ihb => simp [nullable, iha, ihb, matches_seq]
  | or a b iha ihb => simp [nullable, iha, ihb]
  | more a ih => rw [nullable, ih, matches_more_nil]

theorem getLast?_cons_or (c : Char) (s : List Char) (before : Option Char) :
    (c :: s).getLast?.or before = s.getLast?.or (some c) := by
  rw [List.getLast?_cons]
  cases s.getLast? <;> rfl

/-- The first character belongs to the first pattern, or that matches before it and the second one takes it. -/
theorem matches_seq_cons : Matches (.seq p q) before (c :: w) behind ↔
    (∃ s t, w = s ++ t ∧ Matches p before (c :: s) (t.head?.or behind) ∧ Matches q (s.getLast?.or (some c)) t behind) ∨
      Matches p before [] (some c) ∧ Matches q before (c :: w) behind := by
  rw [matches_seq]
  constructor
  · intro ⟨s, t, hw, hp, hq⟩
    cases s with
    | nil =>
      cases hw
      exact .inr ⟨hp, hq⟩
    | cons d s =>
      cases hw
      rw [getLast?_cons_or] at hq
      exact .inl ⟨s, t, rfl, hp, hq⟩
  · intro h
    rcases h with ⟨s, t, rfl, hp, hq⟩ | ⟨hp, hq⟩
    · exact ⟨c :: s, t, rfl, hp, getLast?_cons_or c s before ▸ hq⟩
    · exact ⟨[], c :: w, rfl, hp, hq⟩

/-- The first character belongs to some match in the row; those before it are empty and can be left out. -/
theorem matches_more_cons : Matches (.more p) before (c :: w) behind ↔ ∃ s t, w = s ++ t ∧
    Matches p before (c :: s) (t.head?.or behind) ∧ Matches p.many (s.getLast?.or (some c)) t behind := by
  constructor
  · intro h
    generalize hr : Pattern.more p = r, hw : c :: w = v at h
    induction h with
    | @once _ _ s behind h =>
      cases hr
      exact ⟨w, [], (List.append_nil w).symm, hw ▸ h, matches_many.mpr (.inl rfl)⟩
    | @again _ _ s t behind hp hmore _ ih =>
      cases hr
      cases s with
      | nil => exact ih rfl hw
      | cons d s =>
        cases hw
        rw [getLast?_cons_or] at hmore
        exact ⟨s, t, rfl, hp, matches_many.mpr (.inr hmore)⟩
    | _ => cases hr
  · intro ⟨s, t, hw, hp, hmany⟩
    subst hw
    rw [← getLast?_cons_or c s before] at hmany
    rcases matches_many.mp hmany with rfl | hmore
    · rw [List.append_nil]
      exact .once hp
    · exact .again hp hmore

theorem derive_iff : Matches (p.derive before c) (some c) w behind ↔ Matches p before (c :: w) behind := by
  induction p generalizing w behind with
  | nothing => simp [derive]
  | empty => simp [derive]
  | char k =>
    by_cases h : k.contains c = true
    · simp [derive, h]
    · simp [derive, h]
  | place a => simp [derive]
  | seq a b iha ihb =>
    have hfirst : Matches ((a.derive before c).followedBy b) (some c) w behind ↔ ∃ s t, w = s ++ t ∧
        Matches a before (c :: s) (t.head?.or behind) ∧ Matches b (s.getLast?.or (some c)) t behind := by
      simp only [matches_followedBy, matches_seq, iha]
    rw [derive, matches_seq_cons, ← hfirst, ← nullable_iff]
    by_cases hn : a.nullable before (some c) = true
    · simp [hn, ihb]
    · simp [hn]
  | or a b iha ihb => simp [derive, iha, ihb]
  | more a ih => simp only [derive, matches_followedBy, matches_seq, ih, matches_more_cons]

/-! ## Runs -/

theorem matchesRest_iff : matchesRest before w p = true ↔ Matches p before w none := by
  induction w generalizing before p with
  | nil => exact nullable_iff
  | cons c rest ih => rw [matchesRest, ih, derive_iff]

theorem contains_all (c : Char) : CharClass.all.contains c = true := rfl

/-- Anything at all is any number of characters. -/
theorem matches_many_all : Matches (many (.char .all)) before w behind := by
  induction w generalizing before with
  | nil => exact matches_many.mpr (.inl rfl)
  | cons c rest ih =>
    exact matches_many.mpr (.inr (matches_more_cons.mpr ⟨[], rest, rfl, .char (contains_all c), ih⟩))

/-- A pattern is found in a text exactly if it describes a part of it, standing where it stands. -/
theorem matchesPart_iff {text : List Char} : p.matchesPart text = true ↔
    ∃ x y z, text = x ++ (y ++ z) ∧ Matches p x.getLast? y z.head? := by
  rw [matchesPart, matchesRest_iff, anywhere, matches_seq]
  simp only [matches_seq, matches_many_all, true_and, and_true, Option.or_none]
  constructor
  · intro ⟨x, _, hx, y, z, hyz, hp⟩
    exact ⟨x, y, z, hyz ▸ hx, hp⟩
  · intro ⟨x, y, z, hx, hp⟩
    exact ⟨x, y ++ z, hx, y, z, rfl, hp⟩

/-! ## Counts -/

theorem inRow_succ {n : Nat} : InRow p (n + 1) before w behind ↔ ∃ s t, w = s ++ t ∧
    Matches p before s (t.head?.or behind) ∧ InRow p n (s.getLast?.or before) t behind :=
  ⟨fun | .next hp hrow => ⟨_, _, rfl, hp, hrow⟩, fun ⟨_, _, hw, hp, hrow⟩ => hw ▸ .next hp hrow⟩

theorem inRow_zero : InRow p 0 before w behind ↔ w = [] := ⟨fun | .none => rfl, fun h => h ▸ .none⟩

theorem matches_more : Matches (.more p) before w behind ↔ ∃ n, InRow p (n + 1) before w behind := by
  constructor
  · intro h
    generalize hr : Pattern.more p = r at h
    induction h with
    | @once _ _ s _ h =>
      cases hr
      exact ⟨0, inRow_succ.mpr ⟨s, [], (List.append_nil s).symm, h, .none⟩⟩
    | again hp _ _ ih =>
      cases hr
      obtain ⟨n, hn⟩ := ih rfl
      exact ⟨n + 1, .next hp hn⟩
    | _ => cases hr
  · intro ⟨n, h⟩
    induction n generalizing before w with
    | zero =>
      obtain ⟨s, t, rfl, hp, hrow⟩ := inRow_succ.mp h
      cases inRow_zero.mp hrow
      rw [List.append_nil]
      exact .once hp
    | succ n ih =>
      obtain ⟨s, t, rfl, hp, hrow⟩ := inRow_succ.mp h
      exact .again hp (ih hrow)

/-- A row may be told as its first matches and a row of the others. -/
theorem matches_times {n : Nat} {rest : Pattern} {Q : Nat → Prop}
    (hrest : ∀ {before w}, Matches rest before w behind ↔ ∃ k, Q k ∧ InRow p k before w behind) :
    Matches (p.times n rest) before w behind ↔ ∃ k, Q k ∧ InRow p (n + k) before w behind := by
  induction n generalizing before w with
  | zero =>
    simp only [times, Nat.zero_add]
    exact hrest
  | succ n ih =>
    simp only [times, matches_seq, ih, Nat.succ_add, inRow_succ]
    constructor
    · intro ⟨s, t, hw, hp, k, hk, hrow⟩
      exact ⟨k, hk, s, t, hw, hp, hrow⟩
    · intro ⟨k, hk, s, t, hw, hp, hrow⟩
      exact ⟨s, t, hw, hp, k, hk, hrow⟩

theorem matches_upTo {n : Nat} : Matches (p.upTo n) before w behind ↔ ∃ k, k ≤ n ∧ InRow p k before w behind := by
  induction n generalizing before w with
  | zero => simp [upTo, inRow_zero]
  | succ n ih =>
    simp only [upTo, matches_or, matches_seq, matches_empty, ih]
    constructor
    · intro h
      rcases h with ⟨s, t, rfl, hp, k, hk, hrow⟩ | rfl
      · exact ⟨k + 1, Nat.succ_le_succ hk, .next hp hrow⟩
      · exact ⟨0, Nat.zero_le _, .none⟩
    · intro ⟨k, hk, hrow⟩
      cases hrow with
      | none => exact .inr rfl
      | next hp hrow => exact .inl ⟨_, _, rfl, hp, _, Nat.le_of_succ_le_succ hk, hrow⟩

def Count.Allows (count : Count) (n : Nat) : Prop := count.least ≤ n ∧ ∀ most ∈ count.most, n ≤ most

theorem matches_repeated {count : Count} (hcount : ∀ most ∈ count.most, count.least ≤ most) :
    Matches (p.repeated count) before w behind ↔ ∃ n, count.Allows n ∧ InRow p n before w behind := by
  obtain ⟨least, most⟩ := count
  cases most with
  | some most =>
    have hle : least ≤ most := hcount most rfl
    rw [repeated, matches_times matches_upTo]
    constructor
    · intro ⟨k, hk, hrow⟩
      refine ⟨least + k, ⟨Nat.le_add_right _ _, ?_⟩, hrow⟩
      intro m hm
      cases hm
      omega
    · intro ⟨n, ⟨hn, hmost⟩, hrow⟩
      have := hmost most rfl
      refine ⟨n - least, by omega, ?_⟩
      rwa [Nat.add_sub_cancel' hn]
  | none =>
    cases least with
    | zero =>
      rw [repeated, matches_many, matches_more]
      constructor
      · intro h
        rcases h with rfl | ⟨n, hrow⟩
        · exact ⟨0, ⟨Nat.le_refl 0, nofun⟩, .none⟩
        · exact ⟨n + 1, ⟨Nat.zero_le _, nofun⟩, hrow⟩
      · intro ⟨n, _, hrow⟩
        cases n with
        | zero => exact .inl (inRow_zero.mp hrow)
        | succ n => exact .inr ⟨n, hrow⟩
    | succ least =>
      have hmore {before w} : Matches (.more p) before w behind ↔ ∃ k, 1 ≤ k ∧ InRow p k before w behind := by
        rw [matches_more]
        constructor
        · intro ⟨n, hrow⟩
          exact ⟨n + 1, Nat.le_add_left 1 n, hrow⟩
        · intro ⟨k, hk, hrow⟩
          exact ⟨k - 1, by rwa [Nat.sub_add_cancel hk]⟩
      rw [repeated, matches_times hmore]
      constructor
      · intro ⟨k, hk, hrow⟩
        exact ⟨least + k, ⟨Nat.add_le_add_left hk least, nofun⟩, hrow⟩
      · intro ⟨n, ⟨hn, _⟩, hrow⟩
        refine ⟨n - least, by simp only at hn; omega, ?_⟩
        rwa [Nat.add_sub_cancel' (by simp only at hn; omega)]

end Reshape.Path.Pattern
