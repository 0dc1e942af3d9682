/-
  Reshape.Proofs.Path.Settling — inside a bracket, neither fuel nor what follows matters.

  In an open text every reader stops before the bracket closes. So it answers the same whatever
  stands behind the text, and with any two fuels that cover its needs: twelve levels for each
  character, and as many more as it may pass on to other readers before a character is taken
  (its rank). Both are one statement, `SettledTo`, proved of all readers together by induction on
  the size of the text: a reader that calls another has taken a character before, or calls one of
  lower rank.

  - `SettledTo size rank read`: the statement, for open texts up to this size.
  - `readersSettle`: it holds of every reader at every size.
-/

import Reshape.Proofs.Path.Readers

namespace Reshape.Path

/-- In open texts up to this size the reader answers the same with any two fuels that cover its needs, whatever
    stands behind the text. -/
def SettledTo {α : Type} (size rank : Nat) (read : Nat → List Char → Option (α × List Char)) : Prop :=
  ∀ n m, 12 * size + rank ≤ n → 12 * size + rank ≤ m → ∀ ⦃text⦄, Open text → text.length ≤ size →
    ∀ more, read n (text ++ more) = (read m text).map (behind more)

/-- There is fuel for one level of recursion, and the rest for the reader of one rank less. -/
theorem SettledTo.of_succ {α : Type} {size rank : Nat} {read : Nat → List Char → Option (α × List Char)}
    (h : ∀ n m, 12 * size + rank ≤ n → 12 * size + rank ≤ m → ∀ ⦃text⦄, Open text → text.length ≤ size →
      ∀ more, read (n + 1) (text ++ more) = (read (m + 1) text).map (behind more)) :
    SettledTo size (rank + 1) read := by
  intro n m hn hm text ho hl more
  obtain ⟨n, rfl⟩ : ∃ k, n = k + 1 := ⟨n - 1, by omega⟩
  obtain ⟨m, rfl⟩ : ∃ k, m = k + 1 := ⟨m - 1, by omega⟩
  exact h n m (by omega) (by omega) ho hl more

/-- Blanks before what is read make no difference. -/
theorem SettledTo.blanks {α : Type} {size rank : Nat} {read : Nat → List Char → Option (α × List Char)}
    (h : SettledTo size rank read) (n m : Nat) (hn : 12 * size + rank ≤ n) (hm : 12 * size + rank ≤ m)
    {text : List Char} (ho : Open text) (hl : text.length ≤ size) (more : List Char) :
    read n (skipBlanks (text ++ more)) = (read m (skipBlanks text)).map (behind more) := by
  have hle := (skipBlanks_takes text).length_le
  rw [skipBlanks_append ho]
  exact h n m hn hm ho.skipBlanks (by omega) more

/-- What is read behind a word is read in a shorter text. -/
theorem SettledTo.led {α : Type} {size rank : Nat} {read : Nat → List Char → Option (α × List Char)}
    (h : SettledTo size rank read) (n m : Nat) (hn : 12 * size + rank ≤ n) (hm : 12 * size + rank ≤ m)
    (word : List Char) (hw : isPlainWord word = true) {text : List Char} (ho : Open text)
    (hl : text.length ≤ size + 1) (more : List Char) :
    (afterBlanks? word (text ++ more)).bind (fun rest => read n (skipBlanks rest)) =
      ((afterBlanks? word text).bind fun rest => read m (skipBlanks rest)).map (behind more) := by
  rw [afterBlanks?_steady hw ho more]
  cases hs : afterBlanks? word text with
  | none => rfl
  | some rest =>
    have hword := afterBlanks?_takes hw hs
    have hlt := hword.shorter
    exact h.blanks n m hn hm (hword.takes.open ho) (by omega) more

/-- What holds of all readers in open texts up to this size. A reader's rank is more than that of any reader that it
    calls before a character is taken. -/
structure ReadersSettle (size : Nat) : Prop where
  segments : SettledTo size 2 fun n text => some (readSegments n text)
  segment : SettledTo size 1 readSegment?
  selectors : SettledTo size 2 readSelectors?
  selector : SettledTo size 1 readSelector?
  query : SettledTo size 1 readQuery?
  or : SettledTo size 6 readOr?
  moreOr : ∀ test, SettledTo size 1 fun n text => some (readMoreOr n test text)
  and : SettledTo size 5 readAnd?
  moreAnd : ∀ test, SettledTo size 1 fun n text => some (readMoreAnd n test text)
  test : SettledTo size 4 readTest?
  group : SettledTo size 7 readGroup?
  compared : SettledTo size 3 readCompared?
  against : ∀ left, SettledTo size 1 fun n => readAgainst? n left
  alone : SettledTo size 2 readAlone?
  pattern : ∀ extent, SettledTo size 3 fun n => readMatch? n extent
  operand : SettledTo size 2 readOperand?
  nodes : SettledTo size 2 readNodes?

def SegmentStart.behind (more : List Char) : SegmentStart → SegmentStart
  | .dotted below rest => .dotted below (rest ++ more)
  | .bracket below rest => .bracket below (rest ++ more)
  | .none => .none

theorem segmentStart_append {text : List Char} (h : Open text) (more : List Char) :
    segmentStart (text ++ more) = (segmentStart text).behind more := by
  by_cases hbelow : ∃ inner, text = '.' :: '.' :: inner
  · obtain ⟨inner, rfl⟩ := hbelow
    have hinner : Open inner := (h.tail (by decide)).tail (by decide)
    by_cases hb : ∃ rest, inner = '[' :: rest
    · obtain ⟨rest, rfl⟩ := hb
      rfl
    · have hb : ∀ rest, inner ≠ '[' :: rest := fun rest e => hb ⟨rest, e⟩
      rw [List.cons_append, List.cons_append, segmentStart_below hb, segmentStart_below (start_of_append hinner.mem hb)]
      rfl
  · have hchild : ∀ rest, text ≠ '.' :: '.' :: rest := fun rest e => hbelow ⟨rest, e⟩
    rw [segmentStart_child hchild, segmentStart_child (starts_of_append h.mem (by decide) hchild), skipBlanks_append h]
    obtain ⟨c, rest, hskip⟩ := h.skipBlanks.exists_cons
    rw [hskip]
    by_cases hd : c = '.'
    · obtain rfl := hd
      rfl
    · by_cases hb : c = '['
      · obtain rfl := hb
        rfl
      · simp [hd, hb, SegmentStart.behind]

theorem readDotted?_steady {text : List Char} (h : Open text) : Steady readDotted? text := by
  intro more
  by_cases hw : ∃ rest, text = '*' :: rest
  · obtain ⟨rest, rfl⟩ := hw
    rfl
  · have hw : ∀ rest, text ≠ '*' :: rest := fun rest e => hw ⟨rest, e⟩
    rw [readDotted?_name hw, readDotted?_name (start_of_append h.mem hw), readName?_steady h more, Option.map_map,
      Option.map_map]
    rfl

/-- What a closing parenthesis ends. -/
theorem closed_append {α : Type} (a : α) {text : List Char} (h : Open text) (more : List Char) :
    (afterBlanks? [')'] (text ++ more)).map (fun rest => (a, rest)) =
      ((afterBlanks? [')'] text).map fun rest => (a, rest)).map (behind more) := by
  rw [afterBlanks?_steady (by decide) h more, Option.map_map, Option.map_map]
  rfl

/-- No open text is empty. -/
theorem settledTo_zero {α : Type} (rank : Nat) (read : Nat → List Char → Option (α × List Char)) :
    SettledTo 0 rank read := by
  intro n m _ _ text ho hl
  obtain ⟨c, rest, rfl⟩ := ho.exists_cons
  cases hl

namespace ReadersSettle

variable {size : Nat} (hall : ReadersSettle size)
include hall

/-! ## Segments and selectors -/

theorem segment_succ : SettledTo (size + 1) 1 readSegment? := by
  refine .of_succ fun n m hn hm text ho hl more => ?_
  rw [readSegment?_eq, readSegment?_eq, segmentStart_append ho]
  cases hs : segmentStart text with
  | dotted below rest =>
    have hdotted := readDotted?_steady ((takes_of_dotted hs).takes.open ho) more
    simp only [SegmentStart.behind, hdotted, Option.map_map]
    rfl
  | bracket below rest =>
    have htakes := takes_of_bracket hs
    have hle := htakes.length_le
    rw [List.length_cons] at hle
    have hselectors := hall.selectors n m (by omega) (by omega) (htakes.open ho).opened (by omega) more
    simp only [SegmentStart.behind, hselectors, Option.map_map]
    rfl
  | none => rfl

omit hall in
theorem segments_of (hsegment : SettledTo (size + 1) 1 readSegment?)
    (hshort : SettledTo size 2 fun n text => some (readSegments n text)) :
    SettledTo (size + 1) 2 fun n text => some (readSegments n text) := by
  refine .of_succ fun n m hn hm text ho hl more => ?_
  show some (readSegments (n + 1) (text ++ more)) = some (behind more (readSegments (m + 1) text))
  rw [readSegments, readSegments, hsegment n m (by omega) (by omega) ho hl more]
  cases hs : readSegment? m text with
  | none => rfl
  | some p =>
    have htakes := (readersTake m).segment hs
    have hlt := htakes.shorter
    have hrest := hshort n m (by omega) (by omega) (htakes.takes.open ho) (by omega) more
    simp only [Option.map_some, behind, Option.some.inj hrest]

theorem selector_succ : SettledTo (size + 1) 1 readSelector? := by
  refine .of_succ fun n m hn hm text ho hl more => ?_
  by_cases hw : ∃ rest, text = '*' :: rest
  · obtain ⟨rest, rfl⟩ := hw
    rfl
  · by_cases hf : ∃ rest, text = '?' :: rest
    · obtain ⟨rest, rfl⟩ := hf
      have hrest := ho.tail (by decide)
      simp only [List.length_cons] at hl
      have hor := hall.or.blanks n m (by omega) (by omega) hrest (by omega) more
      rw [List.cons_append, readSelector?, readSelector?, hor, Option.map_map, Option.map_map]
      rfl
    · have hw : ∀ rest, text ≠ '*' :: rest := fun rest e => hw ⟨rest, e⟩
      have hf : ∀ rest, text ≠ '?' :: rest := fun rest e => hf ⟨rest, e⟩
      rw [readSelector?_other n (start_of_append ho.mem hw) (start_of_append ho.mem hf), readSelector?_other m hw hf,
        readQuoted?_steady ho more, readIndices?_steady ho more]
      cases readQuoted? text <;> rfl

omit hall in
theorem selectors_of (hselector : SettledTo (size + 1) 1 readSelector?) (hshort : SettledTo size 2 readSelectors?) :
    SettledTo (size + 1) 2 readSelectors? := by
  refine .of_succ fun n m hn hm text ho hl more => ?_
  rw [readSelectors?, readSelectors?, hselector.blanks n m hn hm ho hl more]
  cases hs : readSelector? m (skipBlanks text) with
  | none => rfl
  | some p =>
    obtain ⟨selector, rest⟩ := p
    have htakes := (skipBlanks_takes text).trans ((readersTake m).selector hs)
    have hrest := htakes.open ho
    have hbehind := (skipBlanks_takes rest).length_le
    have hle := htakes.length_le
    have hopen := hrest.skipBlanks
    simp only [Option.map_some, behind, skipBlanks_append hrest]
    obtain ⟨c, left, hskip⟩ := hopen.exists_cons
    rw [hskip] at hopen hbehind ⊢
    simp only [List.length_cons] at hbehind
    by_cases hclose : c = ']'
    · obtain rfl := hclose
      rfl
    · by_cases hcomma : c = ','
      · obtain rfl := hcomma
        have hselectors := hshort n m (by omega) (by omega) (hopen.tail (by decide)) (by omega) more
        simp only [List.cons_append, hselectors, Option.map_map]
        rfl
      · simp [hclose, hcomma]

theorem query_succ : SettledTo (size + 1) 1 readQuery? := by
  refine .of_succ fun n m hn hm text ho hl more => ?_
  rw [readQuery?, readQuery?, readOrigin?_steady ho more]
  cases hs : readOrigin? text with
  | none => rfl
  | some p =>
    have htakes := readOrigin?_takes hs
    have hlt := htakes.shorter
    have hrest := hall.segments n m (by omega) (by omega) (htakes.takes.open ho) (by omega) more
    simp only [Option.map_some, behind, Option.some.inj hrest]

/-! ## Tests joined together -/

omit hall in
theorem or_of (hand : SettledTo (size + 1) 5 readAnd?)
    (hmore : ∀ test, SettledTo (size + 1) 1 fun n text => some (readMoreOr n test text)) :
    SettledTo (size + 1) 6 readOr? := by
  refine .of_succ fun n m hn hm text ho hl more => ?_
  rw [readOr?, readOr?, hand n m hn hm ho hl more]
  cases hs : readAnd? m text with
  | none => rfl
  | some p =>
    have htakes := (readersTake m).and hs
    have hle := htakes.length_le
    exact hmore p.1 n m (by omega) (by omega) (htakes.open ho) (by omega) more

theorem moreOr_succ (test : Test) : SettledTo (size + 1) 1 fun n text => some (readMoreOr n test text) := by
  refine .of_succ fun n m hn hm text ho hl more => ?_
  show some (readMoreOr (n + 1) test (text ++ more)) = some (behind more (readMoreOr (m + 1) test text))
  rw [readMoreOr, readMoreOr, hall.and.led n m (by omega) (by omega) _ (by decide) ho hl more]
  cases hs : (afterBlanks? ['|', '|'] text).bind fun rest => readAnd? m (skipBlanks rest) with
  | none => rfl
  | some p =>
    have htakes := takes_led (readersTake m).and (by decide) hs
    have hlt := htakes.shorter
    exact hall.moreOr (.or test p.1) n m (by omega) (by omega) (htakes.takes.open ho) (by omega) more

omit hall in
theorem and_of (htest : SettledTo (size + 1) 4 readTest?)
    (hmore : ∀ test, SettledTo (size + 1) 1 fun n text => some (readMoreAnd n test text)) :
    SettledTo (size + 1) 5 readAnd? := by
  refine .of_succ fun n m hn hm text ho hl more => ?_
  rw [readAnd?, readAnd?, htest n m hn hm ho hl more]
  cases hs : readTest? m text with
  | none => rfl
  | some p =>
    have htakes := (readersTake m).test hs
    have hle := htakes.length_le
    exact hmore p.1 n m (by omega) (by omega) (htakes.open ho) (by omega) more

theorem moreAnd_succ (test : Test) : SettledTo (size + 1) 1 fun n text => some (readMoreAnd n test text) := by
  refine .of_succ fun n m hn hm text ho hl more => ?_
  show some (readMoreAnd (n + 1) test (text ++ more)) = some (behind more (readMoreAnd (m + 1) test text))
  rw [readMoreAnd, readMoreAnd, hall.test.led n m (by omega) (by omega) _ (by decide) ho hl more]
  cases hs : (afterBlanks? ['&', '&'] text).bind fun rest => readTest? m (skipBlanks rest) with
  | none => rfl
  | some p =>
    have htakes := takes_led (readersTake m).test (by decide) hs
    have hlt := htakes.shorter
    exact hall.moreAnd (.and test p.1) n m (by omega) (by omega) (htakes.takes.open ho) (by omega) more

omit hall in
theorem group_of (hor : SettledTo (size + 1) 6 readOr?) : SettledTo (size + 1) 7 readGroup? := by
  refine .of_succ fun n m hn hm text ho hl more => ?_
  rw [readGroup?, readGroup?, hor.blanks n m hn hm ho hl more]
  cases hs : readOr? m (skipBlanks text) with
  | none => rfl
  | some p =>
    exact closed_append p.1 (((readersTake m).or hs).open ho.skipBlanks) more

/-! ## Single tests -/

omit hall in
theorem compared_of (hoperand : SettledTo (size + 1) 2 readOperand?)
    (hagainst : ∀ left, SettledTo (size + 1) 1 fun n => readAgainst? n left) :
    SettledTo (size + 1) 3 readCompared? := by
  refine .of_succ fun n m hn hm text ho hl more => ?_
  rw [readCompared?, readCompared?, hoperand n m hn hm ho hl more]
  cases hs : readOperand? m text with
  | none => rfl
  | some p =>
    have htakes := (readersTake m).operand hs
    have hle := htakes.length_le
    exact hagainst p.1 n m (by omega) (by omega) (htakes.open ho) (by omega) more

theorem against_succ (left : Operand) : SettledTo (size + 1) 1 fun n => readAgainst? n left := by
  refine .of_succ fun n m hn hm text ho hl more => ?_
  rw [readAgainst?, readAgainst?, skipBlanks_append ho, readComparison?_steady ho.skipBlanks more]
  cases hs : readComparison? (skipBlanks text) with
  | none => rfl
  | some p =>
    have hsign := TakesSome.behind (skipBlanks_takes text) (readComparison?_takes hs)
    have hlt := hsign.shorter
    have hrest := hsign.takes.open ho
    have hoperand := hall.operand.blanks n m (by omega) (by omega) hrest (by omega) more
    simp only [Option.map_some, behind, hoperand, Option.map_map]
    rfl

theorem alone_of (hquery : SettledTo (size + 1) 1 readQuery?) : SettledTo (size + 1) 2 readAlone? := by
  refine .of_succ fun n m hn hm text ho hl more => ?_
  rw [readAlone?, readAlone?, hquery n m hn hm ho hl more]
  cases readQuery? m text with
  | some p => rfl
  | none =>
    simp only [Option.map_none]
    rw [after?_steady (by decide) ho more, after?_steady (by decide) ho more]
    cases hs : after? "match(".toList text with
    | some rest =>
      have hword := after?_takes (by decide) hs
      have hlt := hword.shorter
      exact hall.pattern .whole n m (by omega) (by omega) (hword.takes.open ho) (by omega) more
    | none =>
      cases hs : after? "search(".toList text with
      | some rest =>
        have hword := after?_takes (by decide) hs
        have hlt := hword.shorter
        exact hall.pattern .part n m (by omega) (by omega) (hword.takes.open ho) (by omega) more
      | none => rfl

theorem test_of (hquery : SettledTo (size + 1) 1 readQuery?) (hcompared : SettledTo (size + 1) 3 readCompared?)
    (hagainst : ∀ left, SettledTo (size + 1) 1 fun n => readAgainst? n left)
    (halone : SettledTo (size + 1) 2 readAlone?) : SettledTo (size + 1) 4 readTest? := by
  refine .of_succ fun n m hn hm text ho hl more => ?_
  by_cases hg : ∃ rest, text = '(' :: rest
  · obtain ⟨rest, rfl⟩ := hg
    simp only [List.length_cons] at hl
    exact hall.group n m (by omega) (by omega) (ho.tail (by decide)) (by omega) more
  by_cases hnot : ∃ rest, text = '!' :: rest
  · obtain ⟨rest, rfl⟩ := hnot
    have hrest := ho.tail (by decide)
    have hle := (skipBlanks_takes rest).length_le
    have hopen := hrest.skipBlanks
    have hskip' := skipBlanks_append hrest more
    simp only [List.length_cons] at hl
    obtain ⟨c, left, hskip⟩ := hopen.exists_cons
    rw [hskip] at hopen hle hskip'
    rw [List.cons_append] at hskip' ⊢
    simp only [List.length_cons] at hle
    by_cases hc : c = '('
    · obtain rfl := hc
      have hgroup := hall.group n m (by omega) (by omega) (hopen.tail (by decide)) (by omega) more
      rw [readTest?, readTest?, hskip', hskip]
      simp only [hgroup, Option.map_map]
      rfl
    · have hinner := hall.alone n m (by omega) (by omega) hopen (by rw [List.length_cons]; omega) more
      rw [List.cons_append] at hinner
      rw [readTest?_not n hskip' hc, readTest?_not m hskip hc, hinner, Option.map_map, Option.map_map]
      rfl
  · have hg : ∀ rest, text ≠ '(' :: rest := fun rest e => hg ⟨rest, e⟩
    have hnot : ∀ rest, text ≠ '!' :: rest := fun rest e => hnot ⟨rest, e⟩
    rw [readTest?_other n (start_of_append ho.mem hg) (start_of_append ho.mem hnot), readTest?_other m hg hnot,
      hquery n m (by omega) (by omega) ho hl more, hcompared n m hn hm ho hl more,
      halone n m (by omega) (by omega) ho hl more]
    cases hs : readQuery? m text with
    | none =>
      simp only [Option.map_none]
      cases readCompared? m text <;> rfl
    | some p =>
      have htakes := (readersTake m).query hs
      have hle := htakes.length_le
      obtain ⟨⟨origin, segments⟩, rest⟩ := p
      simp only [Option.map_some, behind]
      cases singularSteps? segments with
      | none => rfl
      | some steps =>
        have hcompare := hagainst (.singular ⟨origin, steps⟩) n m (by omega) (by omega) (htakes.open ho) (by omega) more
        simp only [Option.bind_some, hcompare]
        cases readAgainst? m (.singular ⟨origin, steps⟩) rest <;> rfl

theorem pattern_of (hoperand : SettledTo (size + 1) 2 readOperand?) (extent : Extent) :
    SettledTo (size + 1) 3 fun n => readMatch? n extent := by
  refine .of_succ fun n m hn hm text ho hl more => ?_
  rw [readMatch?, readMatch?, hoperand.blanks n m hn hm ho hl more]
  cases hs : readOperand? m (skipBlanks text) with
  | none => rfl
  | some p =>
    have hsubject := (skipBlanks_takes text).trans ((readersTake m).operand hs)
    have hrest := hsubject.open ho
    have hle := hsubject.length_le
    have hpattern := hall.operand.led n m (by omega) (by omega) [','] (by decide) hrest (by omega) more
    simp only [Option.map_some, behind, hpattern]
    cases hs : (afterBlanks? [','] p.2).bind fun rest => readOperand? m (skipBlanks rest) with
    | none => rfl
    | some q =>
      have htakes := takes_led (readersTake m).operand (by decide) hs
      exact closed_append _ (htakes.takes.open hrest) more

/-! ## Operands -/

theorem operand_of (hquery : SettledTo (size + 1) 1 readQuery?) : SettledTo (size + 1) 2 readOperand? := by
  refine .of_succ fun n m hn hm text ho hl more => ?_
  rw [readOperand?, readOperand?, readScalar?_steady ho more]
  cases readScalar? text with
  | some p => rfl
  | none =>
    simp only [Option.map_none, hquery n m hn hm ho hl more]
    cases readQuery? m text with
    | some p =>
      obtain ⟨⟨origin, segments⟩, rest⟩ := p
      simp only [Option.map_some, behind]
      cases singularSteps? segments <;> rfl
    | none =>
      simp only [Option.map_none]
      rw [after?_steady (by decide) ho more, after?_steady (by decide) ho more, after?_steady (by decide) ho more]
      cases hs : after? "length(".toList text with
      | some rest =>
        have hword := after?_takes (by decide) hs
        have hlt := hword.shorter
        have hrest := hword.takes.open ho
        have hoperand := hall.operand.blanks n m (by omega) (by omega) hrest (by omega) more
        simp only [Option.map_some, hoperand]
        cases hs : readOperand? m (skipBlanks rest) with
        | none => rfl
        | some p => exact closed_append _ (((readersTake m).operand hs).open hrest.skipBlanks) more
      | none =>
        cases hs : after? "count(".toList text with
        | some rest =>
          have hword := after?_takes (by decide) hs
          have hlt := hword.shorter
          have hrest := hword.takes.open ho
          have hnodes := hall.nodes.blanks n m (by omega) (by omega) hrest (by omega) more
          simp only [Option.map_none, Option.map_some, hnodes]
          cases hs : readNodes? m (skipBlanks rest) with
          | none => rfl
          | some p => exact closed_append _ (((readersTake m).nodes hs).open hrest.skipBlanks) more
        | none =>
          cases hs : after? "value(".toList text with
          | some rest =>
            have hword := after?_takes (by decide) hs
            have hlt := hword.shorter
            have hrest := hword.takes.open ho
            have hnodes := hall.nodes.blanks n m (by omega) (by omega) hrest (by omega) more
            simp only [Option.map_none, Option.map_some, hnodes]
            cases hs : readNodes? m (skipBlanks rest) with
            | none => rfl
            | some p => exact closed_append _ (((readersTake m).nodes hs).open hrest.skipBlanks) more
          | none => rfl

omit hall in
theorem nodes_of (hquery : SettledTo (size + 1) 1 readQuery?) : SettledTo (size + 1) 2 readNodes? := by
  refine .of_succ fun n m hn hm text ho hl more => ?_
  rw [readNodes?, readNodes?, hquery n m hn hm ho hl more]
  cases readQuery? m text with
  | none => rfl
  | some p =>
    obtain ⟨⟨origin, segments⟩, rest⟩ := p
    simp only [Option.map_some, behind]
    cases singularSteps? segments <;> rfl

end ReadersSettle

/-- Inside a bracket, every reader answers the same with any fuel that covers its needs, whatever stands behind. -/
theorem readersSettle (size : Nat) : ReadersSettle size := by
  induction size with
  | zero => constructor <;> (intros; exact settledTo_zero _ _)
  | succ size hall =>
    -- In the order of their ranks, each reader by those that it calls without having taken a character.
    have hsegment := hall.segment_succ
    have hquery := hall.query_succ
    have hoperand := hall.operand_of hquery
    have halone := hall.alone_of hquery
    have hcompared := ReadersSettle.compared_of hoperand hall.against_succ
    have htest := hall.test_of hquery hcompared hall.against_succ halone
    have hand := ReadersSettle.and_of htest hall.moreAnd_succ
    have hor := ReadersSettle.or_of hand hall.moreOr_succ
    exact {
      segments := ReadersSettle.segments_of hsegment hall.segments
      segment := hsegment
      selectors := ReadersSettle.selectors_of hall.selector_succ hall.selectors
      selector := hall.selector_succ
      query := hquery
      or := hor
      moreOr := hall.moreOr_succ
      and := hand
      moreAnd := hall.moreAnd_succ
      test := htest
      group := ReadersSettle.group_of hor
      compared := hcompared
      against := hall.against_succ
      alone := halone
      pattern := hall.pattern_of hoperand
      operand := hoperand
      nodes := ReadersSettle.nodes_of hquery }

end Reshape.Path
