/-
  Reshape.Proofs.Path.Readers — what the readers of a query take off a text.

  The readers call each other, so what holds of one of them holds of all, with one level of
  recursion less each time (`ReadersTake`). Whatever they read is balanced: brackets and quotes
  stand in the text in pairs, or inside strings. A list of selectors is balanced up to the closing
  bracket that ends it.

  - `readSegment?_eq`: a segment by the way it begins (`segmentStart`).
  - `readersTake`: every reader takes off balanced text.
-/

import Reshape.Proofs.Path.Strings

namespace Reshape.Path

variable {fuel : Nat} {text rest : List Char}

/-! ## How a segment begins -/

/-- What the first characters of a segment say of it: whether it descends, and whether a name or a wildcard comes
    next, or selectors in a bracket. -/
inductive SegmentStart
  | dotted (below : Bool) (rest : List Char)
  | bracket (below : Bool) (rest : List Char)
  | none

/-- The beginning of the segment at the start of a text. Blanks may lead it, unless it descends. -/
def segmentStart : List Char → SegmentStart
  | '.' :: '.' :: '[' :: rest => .bracket true rest
  | '.' :: '.' :: rest => .dotted true rest
  | text =>
    match skipBlanks text with
    | '.' :: rest => .dotted false rest
    | '[' :: rest => .bracket false rest
    | _ => .none

def readDotted? : List Char → Option (Selector × List Char)
  | '*' :: rest => some (.wildcard, rest)
  | text => (readName? text).map fun (name, rest) => (.name name, rest)

theorem segmentStart_below (h : ∀ rest, text ≠ '[' :: rest) :
    segmentStart ('.' :: '.' :: text) = .dotted true text := by
  rw [segmentStart]
  exact h

theorem segmentStart_child (h : ∀ rest, text ≠ '.' :: '.' :: rest) :
    segmentStart text =
      match skipBlanks text with
      | '.' :: rest => .dotted false rest
      | '[' :: rest => .bracket false rest
      | _ => .none := by
  rw [segmentStart]
  · exact fun rest => h _
  · exact h

theorem readDotted?_name (h : ∀ rest, text ≠ '*' :: rest) :
    readDotted? text = (readName? text).map fun (name, rest) => (.name name, rest) := by
  rw [readDotted?]
  exact h

/-- A segment is read by its beginning. -/
theorem readSegment?_eq (fuel : Nat) (text : List Char) :
    readSegment? (fuel + 1) text =
      match segmentStart text with
      | .dotted below rest => (readDotted? rest).map fun (selector, rest) => (.mk below [selector], rest)
      | .bracket below rest => (readSelectors? fuel rest).map fun (selectors, rest) => (.mk below selectors, rest)
      | .none => none := by
  rw [readSegment?.eq_def]
  split
  case h_1 => omega
  case h_2 =>
    cases ‹fuel + 1 = _›
    split
    case h_1 => rfl
    case h_2 => rfl
    case h_3 hw hb =>
      rw [segmentStart_below hb]
      simp only [readDotted?_name hw, Option.map_map]
      rfl
  case h_3 hchild =>
    cases ‹fuel + 1 = _›
    rw [segmentStart_child hchild]
    generalize skipBlanks _ = behind
    split
    case h_1 => rfl
    case h_2 hw =>
      simp only [readDotted?_name hw, Option.map_map]
      rfl
    case h_3 => rfl
    case h_4 hw hd hb =>
      split
      case h_3 => rfl
      all_goals
        rename_i hstart
        split at hstart
        case h_1 => exact absurd rfl (hd _)
        case h_2 => exact absurd rfl (hb _)
        case h_3 => cases hstart

theorem readSelector?_other (fuel : Nat) (hw : ∀ rest, text ≠ '*' :: rest) (hf : ∀ rest, text ≠ '?' :: rest) :
    readSelector? (fuel + 1) text =
      match readQuoted? text with
      | some (name, rest) => some (.name name, rest)
      | none => readIndices? text := by
  rw [readSelector?.eq_def]
  split
  case h_1 => omega
  case h_2 => exact absurd rfl (hw _)
  case h_3 => exact absurd rfl (hf _)
  case h_4 => rfl

theorem readTest?_not {c : Char} (fuel : Nat) (hskip : skipBlanks text = c :: rest) (hc : c ≠ '(') :
    readTest? (fuel + 1) ('!' :: text) =
      (readAlone? fuel (c :: rest)).map fun (test, rest) => (.not test, rest) := by
  rw [readTest?, hskip]
  split
  case h_1 e => exact absurd (List.cons.inj e).1 hc
  case h_2 => rfl

theorem readTest?_other (fuel : Nat) (hg : ∀ rest, text ≠ '(' :: rest) (hn : ∀ rest, text ≠ '!' :: rest) :
    readTest? (fuel + 1) text =
      match readQuery? fuel text with
      | some ((origin, segments), rest) =>
        (((singularSteps? segments).bind fun steps => readAgainst? fuel (.singular ⟨origin, steps⟩) rest)).or
          (some (.exists_ origin segments, rest))
      | none => (readCompared? fuel text).or (readAlone? fuel text) := by
  rw [readTest?.eq_def]
  split
  case h_1 => omega
  case h_2 => exact absurd rfl (hg _)
  case h_3 => exact absurd rfl (hn _)
  case h_4 =>
    cases ‹fuel + 1 = _›
    rfl

/-! ## Balanced text is taken off -/

def Taking {α : Type} (read : List Char → Option (α × List Char)) : Prop :=
  ∀ ⦃text a rest⦄, read text = some (a, rest) → Takes text rest

/-- A reader without a level of recursion left reads nothing. -/
theorem taking_none {α : Type} : Taking fun _ => (none : Option (α × List Char)) := fun _ _ _ h => nomatch h

structure ReadersTake (fuel : Nat) : Prop where
  segments : ∀ text, Takes text (readSegments fuel text).2
  segment : ∀ ⦃text segment rest⦄, readSegment? fuel text = some (segment, rest) → TakesSome text rest
  selectors : ∀ ⦃text selectors rest⦄, readSelectors? fuel text = some (selectors, rest) → Takes text (']' :: rest)
  selector : Taking (readSelector? fuel)
  query : Taking (readQuery? fuel)
  or : Taking (readOr? fuel)
  moreOr : ∀ test text, Takes text (readMoreOr fuel test text).2
  and : Taking (readAnd? fuel)
  moreAnd : ∀ test text, Takes text (readMoreAnd fuel test text).2
  test : Taking (readTest? fuel)
  group : Taking (readGroup? fuel)
  compared : Taking (readCompared? fuel)
  against : ∀ left, Taking (readAgainst? fuel left)
  alone : Taking (readAlone? fuel)
  pattern : ∀ extent, Taking (readMatch? fuel extent)
  operand : Taking (readOperand? fuel)
  nodes : Taking (readNodes? fuel)

/-- Selectors are balanced with the brackets around them. -/
theorem takes_bracketed (h : Takes text (']' :: rest)) : TakesSome ('[' :: text) rest := by
  obtain ⟨inner, rfl, hb⟩ := h
  refine ⟨⟨'[' :: (inner ++ [']']), by simp, hb.bracketed⟩, ?_⟩
  simp only [List.length_cons, List.length_append]
  omega

/-- What has been read and then given another form has been taken off. -/
theorem Taking.of_map {α β : Type} {read : List Char → Option (α × List Char)} (hr : Taking read)
    {f : α × List Char → β × List Char} {b : β} (h : (read text).map f = some (b, rest)) (hf : ∀ p, (f p).2 = p.2) :
    Takes text rest := by
  obtain ⟨p, hread, e⟩ := Option.map_eq_some_iff.mp h
  have hleft := hf p
  rw [e] at hleft
  obtain rfl : rest = p.2 := hleft
  exact hr hread

/-- What has been read up to a word has been taken off with the word. -/
theorem takes_of_afterBlanks? {α : Type} {f : List Char → α × List Char} {word : List Char} {a : α}
    (hw : isPlainWord word = true) (h : (afterBlanks? word text).map f = some (a, rest))
    (hf : ∀ rest, (f rest).2 = rest) : Takes text rest := by
  obtain ⟨left, hafter, e⟩ := Option.map_eq_some_iff.mp h
  have hleft := hf left
  rw [e] at hleft
  obtain rfl : rest = left := hleft
  exact (afterBlanks?_takes hw hafter).takes

/-- What is read behind a word has been taken off with the word. -/
theorem takes_led {α : Type} {read : List Char → Option (α × List Char)} (hr : Taking read) {word : List Char} {a : α}
    (hw : isPlainWord word = true)
    (h : (afterBlanks? word text).bind (fun rest => read (skipBlanks rest)) = some (a, rest)) : TakesSome text rest := by
  obtain ⟨left, hafter, hread⟩ := Option.bind_eq_some_iff.mp h
  exact (afterBlanks?_takes hw hafter).trans ((skipBlanks_takes left).trans (hr hread))

/-- Dots, and blanks before them, are taken off first. -/
theorem takes_of_dotted {below : Bool} (h : segmentStart text = .dotted below rest) : TakesSome text rest := by
  unfold segmentStart at h
  split at h
  case h_1 => cases h
  case h_2 =>
    cases h
    exact .cons (by decide) (takes_cons (by decide) _)
  case h_3 =>
    refine .behind (skipBlanks_takes text) ?_
    split at h
    case h_1 e =>
      cases h
      rw [e]
      exact .cons (by decide) (.refl _)
    case h_2 => cases h
    case h_3 => cases h

/-- What is taken off before a bracket. -/
theorem takes_of_bracket {below : Bool} (h : segmentStart text = .bracket below rest) : Takes text ('[' :: rest) := by
  unfold segmentStart at h
  split at h
  case h_1 =>
    cases h
    exact .cons (by decide) (takes_cons (by decide) _)
  case h_2 => cases h
  case h_3 =>
    refine (skipBlanks_takes text).trans ?_
    split at h
    case h_1 => cases h
    case h_2 e =>
      cases h
      rw [e]
      exact .refl _
    case h_3 => cases h

theorem readDotted?_takes : Taking readDotted? := by
  intro text selector rest h
  unfold readDotted? at h
  split at h
  case h_1 =>
    obtain ⟨-, rfl⟩ := Prod.mk.inj (Option.some.inj h)
    exact takes_cons (by decide) _
  case h_2 => exact Taking.of_map (fun _ _ _ => readName?_takes) h fun _ => rfl

namespace ReadersTake

variable (hall : ReadersTake fuel)
include hall

theorem segments_succ (text : List Char) : Takes text (readSegments (fuel + 1) text).2 := by
  rw [readSegments]
  split
  · exact .refl text
  · rename_i segment rest hsegment
    exact (hall.segment hsegment).takes.trans (hall.segments rest)

theorem segment_succ {segment : Segment} (h : readSegment? (fuel + 1) text = some (segment, rest)) :
    TakesSome text rest := by
  rw [readSegment?_eq] at h
  split at h
  case h_1 hstart => exact (takes_of_dotted hstart).trans (readDotted?_takes.of_map h fun _ => rfl)
  case h_2 hstart =>
    obtain ⟨⟨selectors, left⟩, hs, e⟩ := Option.map_eq_some_iff.mp h
    obtain ⟨-, rfl⟩ := Prod.mk.inj e
    exact .behind (takes_of_bracket hstart) (takes_bracketed (hall.selectors hs))
  case h_3 => cases h

theorem selectors_succ {selectors : List Selector} (h : readSelectors? (fuel + 1) text = some (selectors, rest)) :
    Takes text (']' :: rest) := by
  rw [readSelectors?] at h
  split at h
  · cases h
  · rename_i selector left hselector
    refine ((skipBlanks_takes text).trans (hall.selector hselector)).trans ((skipBlanks_takes left).trans ?_)
    split at h
    · rename_i hskip
      rw [hskip]
      obtain ⟨-, rfl⟩ := Prod.mk.inj (Option.some.inj h)
      exact .refl _
    · rename_i hskip
      rw [hskip]
      obtain ⟨⟨more, left⟩, hs, e⟩ := Option.map_eq_some_iff.mp h
      obtain ⟨-, rfl⟩ := Prod.mk.inj e
      exact .cons (by decide) (hall.selectors hs)
    · cases h

theorem selector_succ : Taking (readSelector? (fuel + 1)) := by
  intro text selector rest h
  rw [readSelector?.eq_def] at h
  split at h
  case h_1 => omega
  case h_2 =>
    obtain ⟨-, rfl⟩ := Prod.mk.inj (Option.some.inj h)
    exact takes_cons (by decide) _
  case h_3 =>
    cases ‹fuel + 1 = _›
    exact .cons (by decide) ((skipBlanks_takes _).trans (hall.or.of_map h (fun _ => rfl)))
  case h_4 =>
    split at h
    · obtain ⟨-, rfl⟩ := Prod.mk.inj (Option.some.inj h)
      exact readQuoted?_takes ‹_›
    · exact readIndices?_takes h

theorem query_succ : Taking (readQuery? (fuel + 1)) := by
  intro text query rest h
  rw [readQuery?] at h
  obtain ⟨⟨origin, left⟩, horigin, e⟩ := Option.map_eq_some_iff.mp h
  obtain ⟨-, rfl⟩ := Prod.mk.inj e
  exact (readOrigin?_takes horigin).takes.trans (hall.segments left)

theorem or_succ : Taking (readOr? (fuel + 1)) := by
  intro text test rest h
  rw [readOr?] at h
  split at h
  · cases h
  · rename_i first left hfirst
    have hmore := hall.moreOr first left
    rw [Option.some.inj h] at hmore
    exact (hall.and hfirst).trans hmore

theorem moreOr_succ (test : Test) (text : List Char) : Takes text (readMoreOr (fuel + 1) test text).2 := by
  rw [readMoreOr]
  split
  · exact .refl text
  · rename_i other rest hother
    exact (takes_led hall.and (by decide) hother).takes.trans (hall.moreOr _ rest)

theorem and_succ : Taking (readAnd? (fuel + 1)) := by
  intro text test rest h
  rw [readAnd?] at h
  split at h
  · cases h
  · rename_i first left hfirst
    have hmore := hall.moreAnd first left
    rw [Option.some.inj h] at hmore
    exact (hall.test hfirst).trans hmore

theorem moreAnd_succ (test : Test) (text : List Char) : Takes text (readMoreAnd (fuel + 1) test text).2 := by
  rw [readMoreAnd]
  split
  · exact .refl text
  · rename_i other rest hother
    exact (takes_led hall.test (by decide) hother).takes.trans (hall.moreAnd _ rest)

theorem test_succ : Taking (readTest? (fuel + 1)) := by
  intro text test rest h
  rw [readTest?.eq_def] at h
  split at h
  case h_1 => omega
  case h_2 =>
    cases ‹fuel + 1 = _›
    exact .cons (by decide) (hall.group h)
  case h_3 =>
    cases ‹fuel + 1 = _›
    obtain ⟨⟨inner, left⟩, hinner, e⟩ := Option.map_eq_some_iff.mp h
    obtain ⟨-, rfl⟩ := Prod.mk.inj e
    refine .cons (by decide) ((skipBlanks_takes _).trans ?_)
    split at hinner
    · rename_i hskip
      rw [hskip]
      exact .cons (by decide) (hall.group hinner)
    · exact hall.alone hinner
  case h_4 =>
    cases ‹fuel + 1 = _›
    split at h
    · rename_i hquery
      refine (hall.query hquery).trans ?_
      rcases Option.or_eq_some_iff.mp h with h | ⟨-, h⟩
      · obtain ⟨steps, -, hagainst⟩ := Option.bind_eq_some_iff.mp h
        exact hall.against _ hagainst
      · obtain ⟨-, rfl⟩ := Prod.mk.inj (Option.some.inj h)
        exact .refl _
    · rcases Option.or_eq_some_iff.mp h with h | ⟨-, h⟩
      · exact hall.compared h
      · exact hall.alone h

theorem group_succ : Taking (readGroup? (fuel + 1)) := by
  intro text test rest h
  rw [readGroup?] at h
  split at h
  · cases h
  · rename_i inner left hinner
    refine ((skipBlanks_takes text).trans (hall.or hinner)).trans ?_
    exact takes_of_afterBlanks? (by decide) h (fun _ => rfl)

theorem compared_succ : Taking (readCompared? (fuel + 1)) := by
  intro text test rest h
  rw [readCompared?] at h
  split at h
  · cases h
  · rename_i left behind hleft
    exact (hall.operand hleft).trans (hall.against left h)

theorem against_succ (left : Operand) : Taking (readAgainst? (fuel + 1) left) := by
  intro text test rest h
  rw [readAgainst?] at h
  split at h
  · cases h
  · rename_i how behind hhow
    refine ((skipBlanks_takes text).trans (readComparison?_takes hhow).takes).trans ((skipBlanks_takes behind).trans ?_)
    exact hall.operand.of_map h (fun _ => rfl)

theorem alone_succ : Taking (readAlone? (fuel + 1)) := by
  intro text test rest h
  rw [readAlone?] at h
  split at h
  · obtain ⟨-, rfl⟩ := Prod.mk.inj (Option.some.inj h)
    exact hall.query ‹_›
  · split at h
    case h_3 => cases h
    all_goals
      refine (after?_takes ?_ ‹after? _ _ = some _›).takes.trans (hall.pattern _ h)
      decide

theorem pattern_succ (extent : Extent) : Taking (readMatch? (fuel + 1) extent) := by
  intro text test rest h
  rw [readMatch?] at h
  split at h
  · cases h
  · rename_i subject left hsubject
    refine ((skipBlanks_takes text).trans (hall.operand hsubject)).trans ?_
    split at h
    · cases h
    · rename_i pattern behind hpattern
      refine (takes_led hall.operand (by decide) hpattern).takes.trans ?_
      exact takes_of_afterBlanks? (by decide) h fun _ => rfl

theorem nodes_succ : Taking (readNodes? (fuel + 1)) := by
  intro text nodes rest h
  rw [readNodes?] at h
  refine hall.query.of_map h ?_
  rintro ⟨⟨origin, segments⟩, left⟩
  dsimp only
  cases singularSteps? segments <;> rfl

theorem operand_succ : Taking (readOperand? (fuel + 1)) := by
  intro text operand rest h
  rw [readOperand?] at h
  split at h
  · obtain ⟨-, rfl⟩ := Prod.mk.inj (Option.some.inj h)
    exact readScalar?_takes ‹_›
  · split at h
    · rename_i hquery
      obtain ⟨steps, -, e⟩ := Option.map_eq_some_iff.mp h
      obtain ⟨-, rfl⟩ := Prod.mk.inj e
      exact hall.query hquery
    · split at h
      case h_4 => cases h
      case h_1 =>
        split at h
        · cases h
        · rename_i hinner
          refine (after?_takes ?_ ‹after? _ _ = some _›).takes.trans ((skipBlanks_takes _).trans ?_)
          · decide
          · exact (hall.operand hinner).trans (takes_of_afterBlanks? (by decide) h fun _ => rfl)
      case h_2 | h_3 =>
        split at h
        · cases h
        · rename_i hinner
          refine (after?_takes ?_ ‹after? _ _ = some _›).takes.trans ((skipBlanks_takes _).trans ?_)
          · decide
          · exact (hall.nodes hinner).trans (takes_of_afterBlanks? (by decide) h fun _ => rfl)

end ReadersTake

theorem readersTake (fuel : Nat) : ReadersTake fuel := by
  induction fuel with
  | zero =>
    exact {
      segments := fun text => .refl text
      segment := fun _ _ _ h => nomatch h
      selectors := fun _ _ _ h => nomatch h
      selector := taking_none
      query := taking_none
      or := taking_none
      moreOr := fun _ text => .refl text
      and := taking_none
      moreAnd := fun _ text => .refl text
      test := taking_none
      group := taking_none
      compared := taking_none
      against := fun _ => taking_none
      alone := taking_none
      pattern := fun _ => taking_none
      operand := taking_none
      nodes := taking_none }
  | succ fuel hall =>
    exact {
      segments := hall.segments_succ
      segment := fun _ _ _ => hall.segment_succ
      selectors := fun _ _ _ => hall.selectors_succ
      selector := hall.selector_succ
      query := hall.query_succ
      or := hall.or_succ
      moreOr := hall.moreOr_succ
      and := hall.and_succ
      moreAnd := hall.moreAnd_succ
      test := hall.test_succ
      group := hall.group_succ
      compared := hall.compared_succ
      against := hall.against_succ
      alone := hall.alone_succ
      pattern := hall.pattern_succ
      operand := hall.operand_succ
      nodes := hall.nodes_succ }

end Reshape.Path
