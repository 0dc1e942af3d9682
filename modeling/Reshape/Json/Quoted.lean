/-
  Reshape.Json.Quoted — string literals.

  A string stands between two quotes of the same kind, single or double. Between them every
  character stands for itself, line feeds and controls included, but for the backslash,
  which begins an escape: one of a few letters, or `u` and four hexadecimal digits. The
  units of a surrogate pair are written as two escapes in a row and name one character.
  - An unknown or unfinished escape breaks the reading behind its backslash, a surrogate
    that has no partner behind its `u`, a string that is never closed at the end.
-/

import Reshape.Json.Failure
import Reshape.Text.Basic

namespace Reshape

def letterEscape? : Char → Option Char
  | '"' => some '"'
  | '\'' => some '\''
  | '\\' => some '\\'
  | '/' => some '/'
  | 'n' => some '\n'
  | 'r' => some '\r'
  | 't' => some '\t'
  | 'b' => some '\x08'
  | 'f' => some '\x0c'
  | _ => none

def readQuad (c : Cursor) : Outcome Nat :=
  match c.rest with
  | i :: j :: k :: l :: rest =>
    match hexQuad? i j k l with
    | some unit => .found unit (c.past [i, j, k, l] rest)
    | none => .absent
  | _ => .absent

/-- The character that a unit stands for, its `u` already read. A high surrogate asks for a second escape. -/
def readUnit (inside : Cursor) : Outcome Char :=
  (readQuad inside).andThen fun unit next =>
    if isHighSurrogate unit then
      match next.rest with
      | '\\' :: 'u' :: rest =>
        (readQuad (next.past ['\\', 'u'] rest)).andThen fun low last =>
          if isLowSurrogate low then
            match scalar? (joinSurrogates unit low) with
            | some char => .found char last
            | none => .broken (.unexpected .unicodeEscape inside)
          else .broken (.unexpected .surrogatePair inside)
      | _ => .absent
    else
      match scalar? unit with
      | some char => .found char next
      | none => .broken (.unexpected .unicodeEscape inside)

/-- The character that an escape stands for, its backslash already read. -/
def readEscape (c : Cursor) : Outcome Char :=
  match c.rest with
  | [] => .broken (.unexpected .escape c)
  | letter :: rest =>
    if letter = 'u' then (readUnit (c.past ['u'] rest)).required .escape c
    else
      match letterEscape? letter with
      | some char => .found char (c.past [letter] rest)
      | none => .broken (.unexpected .escape c)

theorem readQuad_shorter {c next : Cursor} {unit : Nat} (h : readQuad c = .found unit next) :
    next.rest.length < c.rest.length := by
  unfold readQuad at h
  split at h
  · rename_i hc
    split at h
    · cases h
      simp only [hc, Cursor.past, List.length_cons]
      omega
    · cases h
  · cases h

theorem readUnit_shorter {c next : Cursor} {char : Char} (h : readUnit c = .found char next) :
    next.rest.length < c.rest.length := by
  obtain ⟨unit, between, hq, h⟩ := Outcome.andThen_eq_found h
  have hfirst := readQuad_shorter hq
  split at h
  · split at h
    · rename_i hrest
      obtain ⟨low, last, hq', h⟩ := Outcome.andThen_eq_found h
      have hsecond := readQuad_shorter hq'
      simp only [Cursor.past] at hsecond
      rw [hrest, List.length_cons, List.length_cons] at hfirst
      split at h
      · split at h
        · cases h
          omega
        · cases h
      · cases h
    · cases h
  · split at h
    · cases h
      exact hfirst
    · cases h

theorem readEscape_shorter {c next : Cursor} {char : Char} (h : readEscape c = .found char next) :
    next.rest.length < c.rest.length := by
  unfold readEscape at h
  split at h
  · cases h
  · rename_i hc
    rw [hc, List.length_cons]
    split at h
    · exact Nat.lt_succ_of_lt (readUnit_shorter (Outcome.required_eq_found h))
    · split at h
      · cases h
        exact Nat.lt_succ_self _
      · cases h

/-- The characters of a string, its opening quote already read. -/
def quotedBody (quote : Char) (c : Cursor) : Outcome (List Char) :=
  match _hc : c.rest with
  | [] => .broken (.unexpected .stringEnd c)
  | d :: rest =>
    if d = quote then .found [] (c.past [d] rest)
    else if d = '\\' then
      match _he : readEscape (c.past [d] rest) with
      | .found char next => (quotedBody quote next).map (char :: ·)
      | .absent => .absent
      | .broken f => .broken f
    else (quotedBody quote (c.past [d] rest)).map (d :: ·)
termination_by c.rest.length
decreasing_by
  · have := readEscape_shorter _he
    rw [_hc]
    exact Nat.lt_succ_of_lt this
  · rw [_hc]
    exact Nat.lt_succ_self _

def readString (c : Cursor) : Outcome String :=
  match c.rest with
  | '"' :: rest => (quotedBody '"' (c.past ['"'] rest)).map String.ofList
  | '\'' :: rest => (quotedBody '\'' (c.past ['\''] rest)).map String.ofList
  | _ => .absent

end Reshape
