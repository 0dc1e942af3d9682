/-
  Reshape.Proofs.Path.Normalizing — what a strict path selects, it selects when it is normalized.

  Normalizing cuts a path with a scanner of its own: a dotted name runs up to the next dot or
  opening bracket, and a bracket up to the one that closes it. The reader of queries cuts strict
  paths at the same places, but for blanks: it lets them stand before a segment, where the scanner
  takes them for the end of the name before it. What a blank leads is kept as it is, so only the
  names before the first such segment are in danger.

  - `looseNames`: the dotted names as the scanner cuts them.
  - `Dotted.split`: without a blank in them, they are the names that the reader cuts.
  - `Reads.normalize`: the normalized text is read as the same segments.
  - `normalize_selects`: the normalized path selects what the path selects.
-/

import Reshape.Proofs.Path.Names
import Reshape.Path.Select

namespace Reshape.Path

variable {text name inner rest : List Char} {selector : Selector} {q : Query}

/-! ## Where the scanner cuts -/

/-- The dotted names of a path, as normalizing cuts them. -/
def looseNames (text : List Char) : List (List Char) :=
  match text with
  | [] => []
  | '[' :: rest => looseNames (splitBracket ('[' :: rest)).2
  | '.' :: '.' :: '[' :: rest => looseNames ('[' :: rest)
  | '.' :: '.' :: rest => (splitName rest).1 :: looseNames (splitName rest).2
  | '.' :: rest => (splitName rest).1 :: looseNames (splitName rest).2
  | _ => []
termination_by text.length
decreasing_by
  · exact splitBracketFrom_rest_lt _ _ _
  · simp
  · have := splitName_rest_le rest; simp only [List.length_cons]; omega
  · have := splitName_rest_le rest; simp only [List.length_cons]; omega

theorem splitName_append (h : ∀ c ∈ name, endsName c = false) (hb : Bounded rest) :
    splitName (name ++ rest) = (name, rest) := by
  have hname : ∀ c ∈ name, (!endsName c) = true := fun c hc => by rw [h c hc]; rfl
  have hrest : ∀ c ∈ rest.head?, (!endsName c) = false := fun c hc => by rw [hb c hc]; rfl
  obtain ⟨htake, hdrop⟩ := span_append (p := fun c => !endsName c) hname hrest
  rw [splitName, htake, hdrop]

theorem splitBracket_head (rest : List Char) : ∃ inner, (splitBracket ('[' :: rest)).1 = '[' :: inner := by
  rw [splitBracket, splitBracketFrom]
  split
  · exact ⟨_, rfl⟩
  · exact ⟨_, rfl⟩

theorem memberChars_head (name : List Char) : ∃ c rest, memberChars ['.'] name = c :: rest ∧ endsName c = true := by
  unfold memberChars
  split
  · exact ⟨'.', name, rfl, by decide⟩
  · split
    · exact ⟨'.', [], rfl, by decide⟩
    · exact ⟨'[', _, rfl, by decide⟩

/-- What a name ends before, it ends before when that is normalized. -/
theorem normalizeSegments_bounded (hb : Bounded text) : Bounded (normalizeSegments text) := by
  rw [normalizeSegments.eq_def]
  split
  case h_2 rest =>
    obtain ⟨inner, hinner⟩ := splitBracket_head rest
    rw [hinner]
    exact bounded_cons (by decide) _
  case h_3 => exact bounded_cons (by decide) _
  case h_4 => exact bounded_cons (by decide) _
  case h_5 rest _ _ =>
    obtain ⟨c, tail, htail, hc⟩ := memberChars_head (splitName rest).1
    rw [htail]
    exact bounded_cons hc _
  all_goals exact hb

theorem segmentStart_none {c : Char} (hg : isGap c = false) (he : endsName c = false) (rest : List Char) :
    segmentStart (c :: rest) = .none := by
  simp only [endsName, Bool.or_eq_false_iff, beq_eq_false_iff_ne] at he
  have hskip : skipBlanks (c :: rest) = c :: rest := by rw [skipBlanks, List.dropWhile_cons_of_neg (by simp [hg])]
  rw [segmentStart_child fun more e => he.1 (List.cons.inj e).1, hskip]
  simp [he]

/-- The text of a query begins with a dot or a bracket, or with a blank. -/
theorem Reads.bounded (h : Reads text q) (hg : ∀ c ∈ text.head?, isGap c = false) : Bounded text := by
  intro c hc
  cases text with
  | nil => cases hc
  | cons d rest =>
    obtain rfl := Option.some.inj hc
    cases he : endsName d with
    | true => rfl
    | false =>
      have hnone := segmentStart_none (hg d hc) he rest
      cases h with
      | cons head tail =>
        cases head with
        | dotted start => cases hnone.symm.trans start
        | bracket start => cases hnone.symm.trans start

/-- Where the scanner finds no blank in a name, the name ends where the reader ends it. -/
theorem Reads.bounded_of_splitName (h : Reads rest q) (hname : ∀ c ∈ name, endsName c = false)
    (hg : ∀ c ∈ (splitName (name ++ rest)).1, isGap c = false) : Bounded rest := by
  refine h.bounded fun c hc => ?_
  cases rest with
  | nil => cases hc
  | cons d rest =>
    obtain rfl := Option.some.inj hc
    cases he : endsName d with
    | true =>
      simp only [endsName, Bool.or_eq_true, beq_iff_eq] at he
      rcases he with rfl | rfl <;> decide
    | false =>
      refine hg d ?_
      have hname : ∀ c ∈ name, (!endsName c) = true := fun c hc => by rw [hname c hc]; rfl
      rw [splitName, List.takeWhile_append_of_pos hname, List.takeWhile_cons_of_pos (by rw [he]; rfl)]
      simp

/-! ## Segment by segment -/

def LedByBlank (text : List Char) : Prop := ∃ c ∈ text.head?, isGap c = true

theorem skipBlanks_cases (text : List Char) : LedByBlank text ∨ skipBlanks text = text := by
  cases text with
  | nil => exact Or.inr rfl
  | cons c rest =>
    cases hc : isGap c with
    | true => exact Or.inl ⟨c, rfl, hc⟩
    | false => exact Or.inr (List.dropWhile_cons_of_neg (by rw [hc]; decide))

theorem dotted_cases {below : Bool} (h : segmentStart text = .dotted below inner) :
    LedByBlank text ∨ below = true ∧ text = '.' :: '.' :: inner ∧ (∀ rest, inner ≠ '[' :: rest) ∨
      below = false ∧ text = '.' :: inner ∧ ∀ rest, inner ≠ '.' :: rest := by
  unfold segmentStart at h
  split at h
  case h_1 => cases h
  case h_2 hb =>
    cases h
    exact Or.inr (Or.inl ⟨rfl, rfl, hb⟩)
  case h_3 hchild =>
    split at h
    case h_1 hskip =>
      cases h
      refine (skipBlanks_cases text).imp_right fun e => ?_
      rw [e] at hskip
      exact Or.inr ⟨rfl, hskip, fun rest e => hchild rest (by rw [hskip, e])⟩
    case h_2 => cases h
    case h_3 => cases h

theorem bracket_cases {below : Bool} (h : segmentStart text = .bracket below inner) :
    LedByBlank text ∨ below = true ∧ text = '.' :: '.' :: '[' :: inner ∨ below = false ∧ text = '[' :: inner := by
  unfold segmentStart at h
  split at h
  case h_1 =>
    cases h
    exact Or.inr (Or.inl ⟨rfl, rfl⟩)
  case h_2 => cases h
  case h_3 =>
    split at h
    case h_1 => cases h
    case h_2 hskip =>
      cases h
      refine (skipBlanks_cases text).imp_right fun e => ?_
      rw [e] at hskip
      exact Or.inr ⟨rfl, hskip⟩
    case h_3 => cases h

/-- What a blank leads is kept as it is. -/
theorem LedByBlank.normalizeSegments (h : LedByBlank text) : normalizeSegments text = text := by
  obtain ⟨c, hc, hg⟩ := h
  have hne : ∀ d, isGap d = false → ∀ rest, text ≠ d :: rest := by
    rintro d hd rest rfl
    rw [← Option.some.inj hc, hd] at hg
    cases hg
  rw [Path.normalizeSegments]
  · rintro rfl
    cases hc
  · exact hne '[' (by decide)
  · exact fun rest => hne '.' (by decide) _
  · exact fun rest => hne '.' (by decide) _
  · exact hne '.' (by decide)

theorem normalizeSegments_bracket (h : Balanced inner) (rest : List Char) :
    normalizeSegments ('[' :: (inner ++ ']' :: rest)) = '[' :: (inner ++ ']' :: normalizeSegments rest) := by
  rw [normalizeSegments, h.splitBracket]
  simp

theorem looseNames_bracket (h : Balanced inner) (rest : List Char) :
    looseNames ('[' :: (inner ++ ']' :: rest)) = looseNames rest := by
  rw [looseNames, h.splitBracket]

/-- No blank stands in a dotted name of the path, as normalizing cuts them. -/
def NamesUnbroken (text : List Char) : Prop := ∀ name ∈ looseNames text, ∀ c ∈ name, isGap c = false

/-- The reader and the scanner end the name at the same place. -/
theorem Dotted.split (h : Dotted name selector) (hr : Reads rest q)
    (hnames : ∀ loose ∈ (splitName (name ++ rest)).1 :: looseNames (splitName (name ++ rest)).2,
      ∀ c ∈ loose, isGap c = false) :
    splitName (name ++ rest) = (name, rest) ∧ Bounded rest ∧ NamesUnbroken rest := by
  have hb := hr.bounded_of_splitName h.not_ends (hnames _ List.mem_cons_self)
  have hsplit := splitName_append h.not_ends hb
  refine ⟨hsplit, hb, fun loose hl => hnames loose (List.mem_cons_of_mem _ ?_)⟩
  rw [hsplit]
  exact hl

theorem Reads.normalize (h : Reads text q) (hnames : NamesUnbroken text) : Reads (normalizeSegments text) q := by
  -- Segment by segment, by what each begins with. Once a blank leads one, the rest of the path is kept as it is.
  induction h with
  | nil =>
    rw [normalizeSegments]
    exact .nil
  | cons head tail ih =>
    cases head with
    | dotted start read =>
      obtain ⟨name, hname, rfl⟩ := dotted_of_readDotted? read
      rcases dotted_cases start with hblank | ⟨rfl, rfl, hb⟩ | ⟨rfl, rfl, hd⟩
      · rw [hblank.normalizeSegments]
        exact .cons (.dotted start read) tail
      · rw [NamesUnbroken, looseNames] at hnames
        · obtain ⟨hsplit, hbound, hrest⟩ := hname.split tail hnames
          rw [normalizeSegments, hsplit]
          · exact .cons (hname.heads_below (normalizeSegments_bounded hbound)) (ih hrest)
          · exact hb
        · exact hb
      · rw [NamesUnbroken, looseNames] at hnames
        · obtain ⟨hsplit, hbound, hrest⟩ := hname.split tail hnames
          rw [normalizeSegments, hsplit]
          · exact .cons (hname.heads (normalizeSegments_bounded hbound)) (ih hrest)
          · exact fun rest => hd _
          · exact hd
        · exact fun rest => hd _
        · exact hd
    | bracket start selects =>
      rcases bracket_cases start with hblank | ⟨rfl, rfl⟩ | ⟨rfl, rfl⟩
      · rw [hblank.normalizeSegments]
        exact .cons (.bracket start selects) tail
      · rw [NamesUnbroken, looseNames, looseNames_bracket selects.balanced] at hnames
        rw [normalizeSegments, normalizeSegments_bracket selects.balanced]
        exact .cons (.bracket rfl selects) (ih hnames)
      · rw [NamesUnbroken, looseNames_bracket selects.balanced] at hnames
        rw [normalizeSegments_bracket selects.balanced]
        exact .cons (.bracket rfl selects) (ih hnames)

/-- A strict path without blanks around it, and without a blank in any dotted name as normalizing cuts them, is a
    strict path again when it is normalized, and selects the same of every value. -/
theorem normalize_selects {path : List Char} (hread : Query.read path = .ok q) (htrim : trimBlank path = path)
    (hnames : NamesUnbroken (withoutMarker path)) :
    ∃ strict, Query.read (normalize path) = .ok strict ∧ ∀ v, strict.locations v = q.locations v := by
  obtain ⟨text, rfl, hreads⟩ := read_eq_ok_iff.mp hread
  refine ⟨q, read_eq_ok_iff.mpr ⟨_, ?_, hreads.normalize hnames⟩, fun v => rfl⟩
  rw [Path.normalize, htrim]
  rfl

def bracketsInStrings : List Char := "$.é..a[?@[\"]\"] == '['] ['b',1:2] .c".toList

/-- The name is quoted, and each bracket is cut off where it closes. -/
theorem bracketsInStrings_selects :
    normalize bracketsInStrings = "$['é']..a[?@[\"]\"] == '['] ['b',1:2] .c".toList ∧
      ∃ q strict, Query.read bracketsInStrings = .ok q ∧ Query.read (normalize bracketsInStrings) = .ok strict ∧
        ∀ v, strict.locations v = q.locations v := by
  refine ⟨by decide +kernel, ?_⟩
  have hok : (Query.read bracketsInStrings).isOk = true := by decide +kernel
  have hloose : looseNames (withoutMarker bracketsInStrings) = ["é".toList, "a".toList] := by decide +kernel
  have hnames : NamesUnbroken (withoutMarker bracketsInStrings) := by
    rw [NamesUnbroken, hloose]
    simp [isGap]
  cases hread : Query.read bracketsInStrings with
  | error e =>
    rw [hread] at hok
    cases hok
  | ok q =>
    obtain ⟨strict, hstrict, hsame⟩ := normalize_selects hread (by decide +kernel) hnames
    exact ⟨q, strict, rfl, hstrict, hsame⟩

/-- Of a blank behind a name the scanner makes a part of the name, and no member need have that name. -/
theorem blank_taken_into_name :
    ∃ q strict v, trimBlank "$.a .b".toList = "$.a .b".toList ∧ Query.read "$.a .b".toList = .ok q ∧
      Query.read (normalize "$.a .b".toList) = .ok strict ∧ q.locations v = [[.key "a", .key "b"]] ∧
      strict.locations v = [] := by
  have hnormal : normalize "$.a .b".toList = '$' :: (bracketed "a ".toList ++ ".b".toList) := by decide +kernel
  have hb : Reads ".b".toList [.mk false [.name "b"]] := .cons (.dotted rfl rfl) .nil
  have hblank : Reads " .b".toList [.mk false [.name "b"]] := .cons (.dotted rfl rfl) .nil
  have hread : Reads ".a .b".toList [.mk false [.name "a"], .mk false [.name "b"]] := .cons (.dotted rfl rfl) hblank
  have hstrict : Reads (bracketed "a ".toList ++ ".b".toList) [.mk false [.name "a "], .mk false [.name "b"]] := by
    rw [bracketed_append]
    exact .cons (.bracket rfl (selects_quotedName (by simp))) hb
  refine ⟨_, _, .object [("a", .object [("b", .scalar .null)])], by decide +kernel,
    read_eq_ok_iff.mpr ⟨_, rfl, hread⟩, read_eq_ok_iff.mpr ⟨_, hnormal, hstrict⟩, ?_, ?_⟩
  · decide +kernel
  · decide +kernel

end Reshape.Path
