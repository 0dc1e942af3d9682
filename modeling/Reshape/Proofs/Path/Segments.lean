/-
  Reshape.Proofs.Path.Segments — a query as the segments of its text.

  The readers take fuel, and answer the same with any that covers the text: inside a bracket
  because they are settled there, outside because a segment that has been read has only its bracket
  to be read again. So what a text is read as is a relation between the text and the query.

  - `Selects inner selectors`: the text in a bracket, wherever the bracket stands.
  - `Heads text segment rest`, `Reads text q`: a segment at the start of a text, a whole query.
  - `read_eq_ok_iff`: a query is a dollar sign and its segments.
-/

import Reshape.Proofs.Path.Settling

namespace Reshape.Path

variable {text inner rest : List Char} {segment : Segment} {selectors : List Selector} {q : Query}

/-! ## Selectors in a bracket -/

/-- The text in a bracket is read as these selectors, with any fuel that covers it, whatever stands behind. -/
structure Selects (inner : List Char) (selectors : List Selector) : Prop where
  balanced : Balanced inner
  read : ∀ rest n, 12 * (inner.length + 1) + 2 ≤ n → readSelectors? n (inner ++ ']' :: rest) = some (selectors, rest)

theorem selects_of_readSelectors? {fuel : Nat} (h : readSelectors? fuel text = some (selectors, rest))
    (hf : 12 * text.length + 2 ≤ fuel) : ∃ inner, text = inner ++ ']' :: rest ∧ Selects inner selectors := by
  obtain ⟨inner, rfl, hb⟩ := (readersTake fuel).selectors h
  -- Up to its closing bracket the text is open, and the reader is settled there.
  have hsettle := (readersSettle (inner.length + 1)).selectors
  have hsplit : ∀ rest, inner ++ ']' :: rest = (inner ++ [']']) ++ rest := fun rest => by simp
  have hlen : (inner ++ [']']).length ≤ inner.length + 1 := by simp
  rw [List.length_append, List.length_cons] at hf
  refine ⟨inner, rfl, hb, fun more n hn => ?_⟩
  rw [hsplit, hsettle fuel n (by omega) hn hb.open hlen rest] at h
  obtain ⟨⟨settled, left⟩, hread, e⟩ := Option.map_eq_some_iff.mp h
  obtain ⟨rfl, hleft⟩ := Prod.mk.inj e
  obtain rfl : left = [] := List.append_left_eq_self.mp hleft
  rw [hsplit, hsettle n n hn hn hb.open hlen more, hread]
  rfl

/-! ## Segments and queries -/

inductive Heads : List Char → Segment → List Char → Prop
  | dotted {text inner rest : List Char} {below : Bool} {selector : Selector}
      (start : segmentStart text = .dotted below inner) (read : readDotted? inner = some (selector, rest)) :
      Heads text (.mk below [selector]) rest
  | bracket {text inner rest : List Char} {below : Bool} {selectors : List Selector}
      (start : segmentStart text = .bracket below (inner ++ ']' :: rest)) (selects : Selects inner selectors) :
      Heads text (.mk below selectors) rest

/-- The text is the segments of the query, one behind the other. -/
inductive Reads : List Char → Query → Prop
  | nil : Reads [] []
  | cons {text rest : List Char} {segment : Segment} {q : Query} (head : Heads text segment rest)
      (tail : Reads rest q) : Reads text (segment :: q)

theorem Heads.read (h : Heads text segment rest) {fuel : Nat} (hf : 12 * text.length + 1 ≤ fuel) :
    readSegment? fuel text = some (segment, rest) := by
  obtain ⟨fuel, rfl⟩ : ∃ k, fuel = k + 1 := ⟨fuel - 1, by omega⟩
  rw [readSegment?_eq]
  cases h with
  | dotted start read =>
    rw [start]
    simp only [read, Option.map_some]
  | bracket start selects =>
    have hle := (takes_of_bracket start).length_le
    simp only [List.length_cons, List.length_append] at hle
    rw [start]
    simp only [selects.read rest fuel (by omega), Option.map_some]

theorem Heads.shorter (h : Heads text segment rest) : rest.length < text.length :=
  ((readersTake _).segment (h.read (Nat.le_refl _))).shorter

theorem heads_of_readSegment? {fuel : Nat} (h : readSegment? fuel text = some (segment, rest))
    (hf : 12 * text.length + 1 ≤ fuel) : Heads text segment rest := by
  obtain ⟨fuel, rfl⟩ : ∃ k, fuel = k + 1 := ⟨fuel - 1, by omega⟩
  rw [readSegment?_eq] at h
  split at h
  case h_1 start =>
    obtain ⟨⟨selector, left⟩, hread, e⟩ := Option.map_eq_some_iff.mp h
    obtain ⟨rfl, rfl⟩ := Prod.mk.inj e
    exact .dotted start hread
  case h_2 start =>
    have hle := (takes_of_bracket start).length_le
    rw [List.length_cons] at hle
    obtain ⟨⟨selectors, left⟩, hread, e⟩ := Option.map_eq_some_iff.mp h
    obtain ⟨rfl, rfl⟩ := Prod.mk.inj e
    obtain ⟨inner, rfl, hselects⟩ := selects_of_readSelectors? hread (by omega)
    exact .bracket start hselects
  case h_3 => cases h

theorem Reads.read (h : Reads text q) {fuel : Nat} (hf : 12 * text.length + 2 ≤ fuel) :
    readSegments fuel text = (q, []) := by
  induction h generalizing fuel with
  | nil =>
    obtain ⟨fuel, rfl⟩ : ∃ k, fuel = k + 2 := ⟨fuel - 2, by simp at hf; omega⟩
    rfl
  | cons head tail ih =>
    obtain ⟨fuel, rfl⟩ : ∃ k, fuel = k + 1 := ⟨fuel - 1, by omega⟩
    have hlt := head.shorter
    have hrest : readSegments fuel _ = _ := ih (by omega)
    rw [readSegments, head.read (by omega)]
    simp only [hrest]

theorem reads_of_readSegments {fuel : Nat} (h : readSegments fuel text = (q, [])) (hf : 12 * text.length + 2 ≤ fuel) :
    Reads text q := by
  induction fuel generalizing text q with
  | zero => omega
  | succ fuel ih =>
    rw [readSegments] at h
    split at h
    case h_1 =>
      obtain ⟨rfl, rfl⟩ := Prod.mk.inj h
      exact .nil
    case h_2 segment rest hsegment =>
      have head := heads_of_readSegment? hsegment (by omega)
      have hlt := head.shorter
      obtain ⟨rfl, hleft⟩ := Prod.mk.inj h
      exact .cons head (ih (Prod.ext rfl hleft) (by omega))

/-- A query is a dollar sign and its segments. -/
theorem read_eq_ok_iff {path : List Char} : Query.read path = .ok q ↔ ∃ text, path = '$' :: text ∧ Reads text q := by
  constructor
  · intro h
    unfold Query.read at h
    split at h
    case h_1 text =>
      split at h
      case h_1 hread =>
        cases h
        exact ⟨text, rfl, reads_of_readSegments hread (by rw [readLevels]; omega)⟩
      case h_2 => cases h
    case h_2 => cases h
  · rintro ⟨text, rfl, hreads⟩
    rw [Query.read, hreads.read (by rw [readLevels]; omega)]

end Reshape.Path
