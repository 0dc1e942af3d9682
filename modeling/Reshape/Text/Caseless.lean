/-
  Reshape.Text.Caseless — comparing names with or without regard to the case of ASCII letters.

  Two texts match without regard to case when they agree character by character once
  each ASCII capital is read as its small letter; a character outside ASCII matches only
  itself. A head is cut off a text by the same comparison (`strip?`), so what is
  left begins exactly where the head's last character ended.
  - `strip?_eq_some_iff`: a cut succeeds exactly when the text is some matching
    head followed by what is returned.
-/

namespace Reshape

inductive CaseRule where
  | sensitive
  | insensitive
  deriving DecidableEq, Repr

namespace CaseRule

/-- The character as it is compared: without regard to case, an ASCII capital is its small letter. -/
def fold : CaseRule → Char → Char
  | .sensitive, c => c
  | .insensitive, c => c.toLower

def folded (rule : CaseRule) (text : List Char) : List Char := text.map rule.fold

def agrees (rule : CaseRule) (left right : List Char) : Bool := rule.folded left == rule.folded right

/-- What follows `head` at the start of a text, if the text starts with it. -/
def strip? (rule : CaseRule) : List Char → List Char → Option (List Char)
  | text, [] => some text
  | [], _ :: _ => none
  | c :: text, h :: head => if rule.fold c = rule.fold h then rule.strip? text head else none

def sameText (rule : CaseRule) (left right : String) : Bool := rule.agrees left.toList right.toList

def stripPrefix? (rule : CaseRule) (text head : String) : Option String :=
  (rule.strip? text.toList head.toList).map String.ofList

theorem strip?_eq_some_iff {rule : CaseRule} {text head rest : List Char} :
    rule.strip? text head = some rest ↔ ∃ front, text = front ++ rest ∧ rule.folded front = rule.folded head := by
  induction head generalizing text with
  | nil =>
    constructor
    · intro h
      cases text <;> exact ⟨[], by simpa [strip?] using h, rfl⟩
    · rintro ⟨front, rfl, hf⟩
      have : front = [] := by simpa [folded] using hf
      subst this
      cases rest <;> rfl
  | cons h head ih =>
    cases text with
    | nil =>
      constructor
      · intro e; simp [strip?] at e
      · rintro ⟨front, hf, he⟩
        have : front = [] := by cases front with
          | nil => rfl
          | cons _ _ => simp at hf
        subst this
        simp [folded] at he
    | cons c text =>
      constructor
      · intro e
        by_cases hc : rule.fold c = rule.fold h
        · obtain ⟨front, rfl, hf⟩ := ih.1 (by simpa [strip?, hc] using e)
          exact ⟨c :: front, rfl, by simpa [folded, hc] using hf⟩
        · simp [strip?, hc] at e
      · rintro ⟨front, hf, he⟩
        cases front with
        | nil => simp [folded] at he
        | cons d front =>
          obtain ⟨rfl, rfl⟩ : c = d ∧ text = front ++ rest := by simpa using hf
          have he' : rule.fold c = rule.fold h ∧ rule.folded front = rule.folded head := by
            simpa [folded] using he
          simp only [strip?, he'.1, if_true]
          exact ih.2 ⟨front, rfl, he'.2⟩

end CaseRule

end Reshape
