/-
  Reshape.Proofs.Text.Places — where in a text a position is.

  The position behind a piece of text tells how many line feeds it has, and how many
  characters it has behind the last of them (`past_start`). Further on in a text positions
  are later ones, so in one text a position is that of a single place (`behind_inj`).

  - `Cursor.Ahead`: the same text further on, with the position that belongs there.
  - `ahead_start`: what is ahead of the start of a text is a place in it, and the position is that place's.
-/

import Mathlib.Data.List.Induction
import Reshape.Text.Position

namespace Reshape

namespace Position

/-- The place behind a piece of text from the start on: the line feeds before it, and the characters before it
    since the last of them, both counted from one. -/
def behind (before : List Char) : Position :=
  ⟨1 + before.count '\n', 1 + (before.reverse.takeWhile (· != '\n')).length⟩

theorem behind_concat (before : List Char) (c : Char) : behind (before ++ [c]) = (behind before).after c := by
  unfold behind after
  rw [List.count_append, List.reverse_append, List.reverse_singleton, List.singleton_append, List.takeWhile_cons]
  by_cases hc : c = '\n'
  · subst hc
    simp [Nat.add_assoc]
  · simp [hc, Nat.add_assoc]

theorem past_start (before : List Char) : start.past before = behind before := by
  induction before using List.reverseRecOn with
  | nil => rfl
  | append_singleton before c ih => rw [past_append, ih, past_cons, past_nil, behind_concat]

/-! ## Earlier and later -/

def Before (p q : Position) : Prop := p.line < q.line ∨ p.line = q.line ∧ p.column < q.column

def Upto (p q : Position) : Prop := p = q ∨ p.Before q

variable {p q r : Position}

theorem Before.trans (h : p.Before q) (h' : q.Before r) : p.Before r := by
  unfold Before at *
  omega

theorem Before.ne (h : p.Before q) : p ≠ q := by
  rintro rfl
  unfold Before at h
  omega

theorem Upto.refl (p : Position) : p.Upto p := .inl rfl

theorem Before.upto (h : p.Before q) : p.Upto q := .inr h

theorem Upto.before (h : p.Upto q) (h' : q.Before r) : p.Before r := by
  rcases h with rfl | h
  · exact h'
  · exact h.trans h'

theorem Before.upto_trans (h : p.Before q) (h' : q.Upto r) : p.Before r := by
  rcases h' with rfl | h'
  · exact h
  · exact h.trans h'

theorem Upto.trans (h : p.Upto q) (h' : q.Upto r) : p.Upto r := by
  rcases h' with rfl | h'
  · exact h
  · exact (h.before h').upto

theorem before_after (p : Position) (c : Char) : p.Before (p.after c) := by
  unfold Before after
  split
  · exact .inl (Nat.lt_succ_self _)
  · exact .inr ⟨rfl, Nat.lt_succ_self _⟩

theorem before_past (p : Position) {text : List Char} (h : text ≠ []) : p.Before (p.past text) := by
  induction text generalizing p with
  | nil => exact absurd rfl h
  | cons c text ih =>
    rw [past_cons]
    by_cases ht : text = []
    · subst ht
      exact before_after p c
    · exact (before_after p c).trans (ih _ ht)

theorem upto_past (p : Position) (text : List Char) : p.Upto (p.past text) := by
  by_cases h : text = []
  · subst h
    exact .refl p
  · exact (before_past p h).upto

/-- In one text a position is that of a single place. -/
theorem behind_inj {before before' after after' : List Char} (h : before ++ after = before' ++ after')
    (hp : behind before = behind before') : before = before' := by
  rw [← past_start, ← past_start] at hp
  rcases List.append_eq_append_iff.mp h with ⟨more, rfl, -⟩ | ⟨more, rfl, -⟩
  · by_cases hm : more = []
    · rw [hm, List.append_nil]
    · rw [past_append] at hp
      exact absurd hp (before_past _ hm).ne
  · by_cases hm : more = []
    · rw [hm, List.append_nil]
    · rw [past_append] at hp
      exact absurd hp.symm (before_past _ hm).ne

end Position

/-! ## Further on in a text -/

namespace Cursor

/-- The other cursor is in the same text, here or further on, and has the position that belongs there. -/
def Ahead (c next : Cursor) : Prop := ∃ taken, c.rest = taken ++ next.rest ∧ next.place = c.place.past taken

variable {c next last : Cursor}

theorem Ahead.refl (c : Cursor) : c.Ahead c := ⟨[], rfl, rfl⟩

theorem Ahead.trans (h : c.Ahead next) (h' : next.Ahead last) : c.Ahead last := by
  obtain ⟨taken, hrest, hplace⟩ := h
  obtain ⟨taken', hrest', hplace'⟩ := h'
  refine ⟨taken ++ taken', ?_, ?_⟩
  · rw [hrest, hrest', List.append_assoc]
  · rw [hplace', hplace, Position.past_append]

theorem ahead_past {taken rest : List Char} (h : c.rest = taken ++ rest) : c.Ahead (c.past taken rest) :=
  ⟨taken, h, rfl⟩

theorem ahead_after {d : Char} {rest : List Char} (h : c.rest = d :: rest) : c.Ahead ⟨rest, c.place.after d⟩ :=
  ⟨[d], h, rfl⟩

theorem Ahead.length_le (h : c.Ahead next) : next.rest.length ≤ c.rest.length := by
  obtain ⟨taken, hrest, -⟩ := h
  rw [hrest, List.length_append]
  exact Nat.le_add_left _ _

theorem Ahead.upto (h : c.Ahead next) : c.place.Upto next.place := by
  obtain ⟨taken, -, hplace⟩ := h
  exact hplace ▸ Position.upto_past c.place taken

theorem Ahead.before (h : c.Ahead next) (hlt : next.rest.length < c.rest.length) : c.place.Before next.place := by
  obtain ⟨taken, hrest, hplace⟩ := h
  have htaken : taken ≠ [] := by
    rintro rfl
    rw [hrest] at hlt
    exact Nat.lt_irrefl _ hlt
  exact hplace ▸ Position.before_past c.place htaken

/-- What is ahead of the start of a text is a place in it, and the position is that place's. -/
theorem ahead_start {text : List Char} (h : (Cursor.start text).Ahead c) :
    ∃ before, text = before ++ c.rest ∧ c.place = .behind before := by
  obtain ⟨taken, hrest, hplace⟩ := h
  exact ⟨taken, hrest, hplace.trans (Position.past_start taken)⟩

end Cursor

end Reshape
