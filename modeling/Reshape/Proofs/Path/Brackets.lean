/-
  Reshape.Proofs.Path.Brackets — where the bracket closes that opens a text.

  The scan for a closing bracket knows of a query no more than brackets, quotes and backslashes.
  A text is balanced when the scan, going over it anywhere outside quotes, comes out with as many
  brackets open as before and has not closed any that were: plain characters are, so are quoted
  strings, and so is what stands in a pair of brackets if that is. A text is open when it begins
  inside a bracket and ends with the character that closes it; what is left of an open text once
  something balanced has been taken off is open again.

  - `Balanced.append`, `balanced_of_plain`, `Balanced.bracketed`: what is balanced.
  - `ClosedBy s text`: the scan `s` ends with the last character of the text, and not before.
  - `Balanced.splitBracket`: a bracket with balanced text in it is cut off at its own end.
-/

import Reshape.Path.Loose

namespace Reshape.Path

def isPlain (c : Char) : Bool := c != '\'' && c != '"' && c != '[' && c != ']'

namespace BracketScan

abbrev outside (depth : Nat) : BracketScan := ⟨depth, none⟩

abbrev inside (quote : Char) (depth : Nat) : BracketScan := ⟨depth, some (quote, false)⟩

/-- The scan after more characters; nothing if one of them closes the bracket that opened the scan. -/
def run? (s : BracketScan) : List Char → Option BracketScan
  | [] => some s
  | c :: rest => if (s.step c).closed c then none else (s.step c).run? rest

/-- The scan ends with the last character of the text, and not before. -/
def ClosedBy (s : BracketScan) : List Char → Prop
  | [] => False
  | c :: rest => if (s.step c).closed c then rest = [] else (s.step c).ClosedBy rest

variable {s t : BracketScan} {c : Char} {text more : List Char}

/-! ## One character after another -/

theorem run?_append (s : BracketScan) (text more : List Char) :
    s.run? (text ++ more) = (s.run? text).bind fun t => t.run? more := by
  induction text generalizing s with
  | nil => rfl
  | cons c rest ih =>
    rw [List.cons_append, run?, run?]
    split
    · rfl
    · exact ih _

/-- What the scan has gone over makes no difference to where it ends. -/
theorem closedBy_append_iff (h : s.run? text = some t) : s.ClosedBy (text ++ more) ↔ t.ClosedBy more := by
  induction text generalizing s with
  | nil =>
    obtain rfl := Option.some.inj h
    rfl
  | cons c rest ih =>
    rw [run?] at h
    split at h
    · cases h
    · rename_i hc
      rw [List.cons_append, ClosedBy, if_neg hc]
      exact ih h

/-- The text is cut where the scan ends. -/
theorem splitBracketFrom_append (h : s.ClosedBy text) (more : List Char) :
    splitBracketFrom s (text ++ more) = (text, more) := by
  induction text generalizing s with
  | nil => exact h.elim
  | cons c rest ih =>
    rw [List.cons_append, splitBracketFrom]
    rw [ClosedBy] at h
    split at h
    · rename_i hc
      rw [if_pos hc, h]
      rfl
    · rename_i hc
      rw [if_neg hc, ih h]

/-- It is a closing bracket that ends the scan. -/
theorem ClosedBy.mem (h : s.ClosedBy text) : ']' ∈ text := by
  induction text generalizing s with
  | nil => exact h.elim
  | cons c rest ih =>
    rw [ClosedBy] at h
    split at h
    · rename_i hc
      simp only [closed, Bool.and_eq_true, beq_iff_eq] at hc
      exact hc.1.2 ▸ List.mem_cons_self
    · exact List.mem_cons_of_mem _ (ih h)

theorem not_closed_of_ne (s : BracketScan) (h : c ≠ ']') : (s.step c).closed c = false := by
  simp [closed, h]

/-- A character that is no closing bracket is gone over. -/
theorem run?_cons_of_ne (s : BracketScan) (h : c ≠ ']') : s.run? (c :: text) = (s.step c).run? text := by
  rw [run?, not_closed_of_ne s h]
  rfl

/-! ## Plain characters and quoted strings -/

theorem isPlain_iff : isPlain c = true ↔ c ≠ '\'' ∧ c ≠ '"' ∧ c ≠ '[' ∧ c ≠ ']' := by
  simp [isPlain, and_assoc]

theorem step_plain (depth : Nat) (h : isPlain c = true) : (outside depth).step c = outside depth := by
  obtain ⟨h₁, h₂, h₃, h₄⟩ := isPlain_iff.mp h
  simp [step, h₁, h₂, h₃, h₄]

theorem run?_plain (depth : Nat) (h : ∀ c ∈ text, isPlain c = true) :
    (outside depth).run? text = some (outside depth) := by
  induction text with
  | nil => rfl
  | cons c rest ih =>
    have hc := h c List.mem_cons_self
    rw [run?_cons_of_ne _ (isPlain_iff.mp hc).2.2.2, step_plain depth hc]
    exact ih fun d hd => h d (List.mem_cons_of_mem _ hd)

/-- Inside a string, the scan goes over characters that neither end nor escape. -/
theorem run?_inside (quote : Char) (depth : Nat) (h : ∀ c ∈ text, c ≠ quote ∧ c ≠ '\\') :
    (inside quote depth).run? text = some (inside quote depth) := by
  induction text with
  | nil => rfl
  | cons c rest ih =>
    obtain ⟨hq, hb⟩ := h c List.mem_cons_self
    have hstep : (inside quote depth).step c = inside quote depth := by simp [step, hq, hb]
    rw [run?, hstep, if_neg (by simp [closed])]
    exact ih fun d hd => h d (List.mem_cons_of_mem _ hd)

/-- Inside a string, the scan goes over any character behind a backslash. -/
theorem run?_escape (quote : Char) (depth : Nat) (c : Char) (text : List Char) :
    (inside quote depth).run? ('\\' :: c :: text) = (inside quote depth).run? text := by
  rw [run?_cons_of_ne _ (by decide)]
  have hstep : (inside quote depth).step '\\' = ⟨depth, some (quote, true)⟩ := by simp [step]
  have hnext : BracketScan.step ⟨depth, some (quote, true)⟩ c = inside quote depth := rfl
  rw [hstep, run?, hnext, if_neg (by simp [closed])]

/-- The quote that opened a string ends it. -/
theorem run?_quote {quote : Char} (hq : quote ≠ '\\') (hb : quote ≠ ']') (depth : Nat) (text : List Char) :
    (inside quote depth).run? (quote :: text) = (outside depth).run? text := by
  rw [run?_cons_of_ne _ hb]
  have hstep : (inside quote depth).step quote = outside depth := by simp [step, hq]
  rw [hstep]

end BracketScan

open BracketScan

/-! ## Balanced texts -/

/-- Anywhere outside quotes, the scan goes over the text and is back where it was. -/
def Balanced (text : List Char) : Prop := ∀ depth, 0 < depth → (outside depth).run? text = some (outside depth)

variable {c : Char} {text more : List Char}

theorem balanced_nil : Balanced [] := fun _ _ => rfl

theorem Balanced.append (h : Balanced text) (hm : Balanced more) : Balanced (text ++ more) := by
  intro depth hd
  rw [run?_append, h depth hd]
  exact hm depth hd

theorem balanced_of_plain (h : ∀ c ∈ text, isPlain c = true) : Balanced text := fun depth _ => run?_plain depth h

theorem Balanced.cons (hc : isPlain c = true) (h : Balanced text) : Balanced (c :: text) :=
  (balanced_of_plain (fun _ hd => List.mem_singleton.mp hd ▸ hc) : Balanced [c]).append h

/-- An opening bracket is one more to be closed. -/
theorem run?_open (depth : Nat) (text : List Char) :
    (outside depth).run? ('[' :: text) = (outside (depth + 1)).run? text := run?_cons_of_ne _ (by decide)

/-- A closing bracket is one less to be closed, unless it is the last. -/
theorem run?_close {depth : Nat} (hd : 0 < depth) (text : List Char) :
    (outside (depth + 1)).run? (']' :: text) = (outside depth).run? text := by
  have hstep : (outside (depth + 1)).step ']' = outside depth := rfl
  rw [run?, hstep, if_neg (by simp [closed]; omega)]

/-- What stands in a pair of brackets is balanced with them if it is without. -/
theorem Balanced.bracketed (h : Balanced text) : Balanced ('[' :: (text ++ [']'])) := by
  intro depth hd
  rw [run?_open, run?_append, h (depth + 1) (by omega), Option.bind_some, run?_close hd]
  rfl

/-- The bracket that opens a text is closed where the balanced text in it ends. -/
theorem Balanced.closedBy (h : Balanced text) : (outside 0).ClosedBy ('[' :: (text ++ [']'])) := by
  have hopen : (outside 0).run? ['['] = some (outside 1) := rfl
  have hall : (outside 0).run? ('[' :: text) = some (outside 1) := by rw [run?_open]; exact h 1 Nat.one_pos
  rw [← List.cons_append, closedBy_append_iff hall]
  rfl

/-- A bracket with balanced text in it is cut off at its own end. -/
theorem Balanced.splitBracket (h : Balanced text) (more : List Char) :
    splitBracket ('[' :: (text ++ ']' :: more)) = ('[' :: (text ++ [']']), more) := by
  have happend : '[' :: (text ++ ']' :: more) = ('[' :: (text ++ [']'])) ++ more := by simp
  rw [Path.splitBracket, happend]
  exact BracketScan.splitBracketFrom_append h.closedBy more

/-! ## Open texts -/

/-- The text begins inside a bracket, outside quotes, and ends with the character that closes this bracket. -/
def Open (text : List Char) : Prop := ∃ depth, 0 < depth ∧ (outside depth).ClosedBy text

/-- What is left of an open text behind balanced text is open. -/
theorem Open.behind (h : Open (text ++ more)) (hb : Balanced text) : Open more := by
  obtain ⟨depth, hd, hc⟩ := h
  exact ⟨depth, hd, (closedBy_append_iff (hb depth hd)).mp hc⟩

theorem Open.tail (h : Open (c :: text)) (hc : isPlain c = true) : Open text := by
  have hone : Balanced [c] := .cons hc balanced_nil
  exact Open.behind h hone

/-- Behind an opening bracket there is one more bracket to be closed. -/
theorem Open.opened (h : Open ('[' :: text)) : Open text := by
  obtain ⟨depth, -, hc⟩ := h
  have hone : (outside depth).run? ['['] = some (outside (depth + 1)) := rfl
  have hbehind : (outside depth).ClosedBy (['['] ++ text) ↔ (outside (depth + 1)).ClosedBy text :=
    closedBy_append_iff hone
  exact ⟨depth + 1, Nat.succ_pos depth, hbehind.mp hc⟩

theorem Open.mem (h : Open text) : ']' ∈ text := h.elim fun _ hd => hd.2.mem

theorem Open.exists_cons (h : Open text) : ∃ c rest, text = c :: rest :=
  List.exists_cons_of_ne_nil fun e => nomatch e ▸ h.mem

/-- In front of what closes it, balanced text in a bracket is open. -/
theorem Balanced.open (h : Balanced text) : Open (text ++ [']']) :=
  ⟨1, Nat.one_pos, (closedBy_append_iff (h 1 Nat.one_pos)).mpr rfl⟩

end Reshape.Path
