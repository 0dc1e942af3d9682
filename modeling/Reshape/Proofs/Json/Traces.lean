/-
  Reshape.Proofs.Json.Traces — the readers with marks and the readers without tell the same.

  `Tells` relates the outcome of a reader to the answer of the one with marks: what is found
  is the same, what is absent is a soft failure, what is broken is a hard one whose innermost
  label is the failure. A number that breaks off has no label of its own and takes that of
  the value around it.
  - One lemma for each way to put readers together (`Tells.andThen`, `Tells.labelled`,
    `Tells.committed`, the three about alternatives), so that no proof opens one again.
  - `gap_tells`: pieces of white space and comments as against one character at a time, by
    induction on what is left to read.
  - `string_tells`: runs of characters and escapes as against one character at a time.
-/

import Reshape.Json.Traced
import Reshape.Proofs.Json.Progress

namespace Reshape.Traced

variable {α β : Type} {soft outer : Option Failure} {o : Outcome α} {a : Answer α} {c : Cursor}

/-- What a reader tells: `soft` is the innermost label of its soft failures, `outer` the label that its hard ones
    get from outside if they have none. -/
inductive Tells (soft outer : Option Failure) : Outcome α → Answer α → Prop
  | found (v : α) (next : Cursor) : Tells soft outer (.found v next) (.found v next)
  | absent {t : Trace} (h : t.label? = soft) : Tells soft outer .absent (.failed false t)
  | broken {t : Trace} {f : Failure} (h : t.label?.or outer = some f) : Tells soft outer (.broken f) (.failed true t)

/-! ## Labels of traces -/

theorem label?_concat (t : Trace) (c : Cursor) (wanted : Expected) :
    Trace.label? (t ++ [(c, .label wanted)]) = t.label?.or (some (.unexpected wanted c)) := by
  rw [Trace.label?, List.findSome?_append]
  rfl

theorem label?_concat_reader (t : Trace) (c : Cursor) : Trace.label? (t ++ [(c, .reader)]) = t.label? := by
  rw [Trace.label?, List.findSome?_append]
  exact Option.or_none

/-! ## Readers from readers -/

namespace Tells

theorem andThen {g : α → Cursor → Outcome β} {g' : α → Cursor → Answer β} (h : Tells soft outer o a)
    (hg : ∀ v next, o = .found v next → Tells soft outer (g v next) (g' v next)) :
    Tells soft outer (o.andThen g) (a.andThen g') := by
  cases h with
  | found v next => exact hg v next rfl
  | absent h => exact .absent h
  | broken h => exact .broken h

theorem map (f : α → β) (h : Tells soft outer o a) : Tells soft outer (o.map f) (a.map f) :=
  h.andThen fun v next _ => .found (f v) next

/-- A hard failure with a label of its own needs none from outside. -/
theorem within (h : Tells soft none o a) : Tells soft outer o a := by
  cases h with
  | found v next => exact .found v next
  | absent h => exact .absent h
  | broken h =>
    rw [Option.or_none] at h
    exact .broken (by rw [h]; rfl)

theorem labelled {r : Reader α} {wanted : Expected} (h : Tells none (some (.unexpected wanted c)) o (r c)) :
    Tells (some (.unexpected wanted c)) none o (labelled wanted r c) := by
  unfold Traced.labelled
  cases hr : r c with
  | found v next =>
    rw [hr] at h
    cases h
    exact .found v next
  | failed hard t =>
    rw [hr] at h
    cases h with
    | absent h => exact .absent (by rw [label?_concat, h]; rfl)
    | broken h => exact .broken (by rw [label?_concat, h]; rfl)

/-- Committing to a reader with a label asks for what the label says. -/
theorem committed {r : Reader α} {wanted : Expected} {at_ : Cursor}
    (h : Tells (some (.unexpected wanted at_)) none o (r c)) :
    Tells soft none (o.required wanted at_) (committed r c) := by
  unfold Traced.committed
  cases hr : r c with
  | found v next =>
    rw [hr] at h
    cases h
    exact .found v next
  | failed hard t =>
    rw [hr] at h
    cases h with
    | absent h => exact .broken (by rw [h]; rfl)
    | broken h => exact .broken h

/-- A reader that always finds something or breaks is the same as one committed to. -/
theorem committed_of_ne {r : Reader α} {soft' : Option Failure} (h : Tells soft' none o (r c)) (hne : o ≠ .absent) :
    Tells soft none o (Traced.committed r c) := by
  unfold Traced.committed
  cases hr : r c with
  | found v next =>
    rw [hr] at h
    cases h
    exact .found v next
  | failed hard t =>
    rw [hr] at h
    cases h with
    | absent h => exact absurd rfl hne
    | broken h => exact .broken h

end Tells

theorem Answer.map_map {γ : Type} (f : α → β) (g : β → γ) (a : Answer α) :
    (a.map f).map g = a.map fun v => g (f v) := by
  cases a <;> rfl

theorem map_map {γ : Type} (f : α → β) (g : β → γ) (o : Outcome α) : (o.map f).map g = o.map fun v => g (f v) := by
  cases o <;> rfl

theorem map_ne_absent {f : α → β} (h : o ≠ .absent) : o.map f ≠ .absent := by
  cases o with
  | absent => exact absurd rfl h
  | _ => simp [Outcome.map, Outcome.andThen]

theorem committed_andThen {r : Reader α} (g : α → Reader β) :
    committed (fun c => (r c).andThen g) c = (committed r c).andThen fun v => committed (g v) := by
  unfold committed
  cases h : r c with
  | found v next => simp only [h, Answer.andThen]
  | failed hard t => simp only [h, Answer.andThen]

theorem committed_map (f : α → β) (r : Reader α) : committed (fun c => (r c).map f) c = (committed r c).map f := by
  rw [Answer.map]
  exact committed_andThen fun v c => .found (f v) c

/-! ## Alternatives -/

section Alternatives

variable {r s : Reader α} {rest : List (Reader α)} {t : Trace}

theorem firstOf_found {v : α} {next : Cursor} (h : r c = .found v next) : firstOf (r :: rest) c = .found v next := by
  cases rest <;> simp only [firstOf, h]

theorem firstOf_hard (h : r c = .failed true t) : firstOf (r :: rest) c = .failed true t := by
  cases rest <;> simp only [firstOf, h]

theorem firstOf_soft (h : r c = .failed false t) : firstOf (r :: s :: rest) c = firstOf (s :: rest) c := by
  simp only [firstOf, h]

theorem firstOf_last (h : r c = .failed false t) : firstOf [r] c = .failed false (t ++ [(c, .reader)]) := by
  simp only [firstOf, h]

/-- A first alternative that finds something or breaks decides. -/
theorem Tells.firstOf_head (h : Tells soft outer o (r c)) (hne : o ≠ .absent) :
    Tells soft outer o (firstOf (r :: rest) c) := by
  cases hr : r c with
  | found v next => rwa [firstOf_found hr, ← hr]
  | failed hard t =>
    rw [hr] at h
    cases h with
    | absent h => exact absurd rfl hne
    | broken h =>
      rw [firstOf_hard hr]
      exact .broken h

/-- A first alternative that is absent leaves it to the others. -/
theorem Tells.firstOf_next {outer' : Option Failure} (h : Tells soft outer' .absent (r c))
    (ho : Tells none outer o (firstOf (s :: rest) c)) :
    Tells none outer o (firstOf (r :: s :: rest) c) := by
  generalize ha : r c = a at h
  cases h
  rwa [firstOf_soft ha]

theorem Tells.firstOf_last (h : Tells none outer o (r c)) : Tells none outer o (firstOf [r] c) := by
  cases hr : r c with
  | found v next => rwa [firstOf_found hr, ← hr]
  | failed hard t =>
    rw [hr] at h
    cases h with
    | absent h =>
      rw [Traced.firstOf_last hr]
      exact .absent (by rw [label?_concat_reader, h])
    | broken h =>
      rw [firstOf_hard hr]
      exact .broken h

end Alternatives

/-! ## Tokens -/

theorem head?_ne_of_ne_cons {d : Char} {text : List Char} (h : ∀ rest, text ≠ d :: rest) : text.head? ≠ some d := by
  cases text with
  | nil => simp
  | cons e rest =>
    intro hhead
    cases hhead
    exact h rest rfl

theorem sign_found {d : Char} {rest : List Char} (h : c.rest = d :: rest) :
    sign d c = .found () (c.past [d] rest) := by
  simp only [sign, leaf, readChar, h, if_true]
  rfl

theorem sign_absent {d : Char} (h : c.rest.head? ≠ some d) : sign d c = .failed false [(c, .char d)] := by
  obtain ⟨rest, place⟩ := c
  cases rest with
  | nil => rfl
  | cons e rest =>
    have he : e ≠ d := fun he => h (congrArg some he)
    simp only [sign, leaf, readChar, he, if_false]

theorem leaf_tells {mark : Mark} {r : Cursor → Outcome α} (hmark : Trace.label? [(c, mark)] = none)
    (h : ∀ f, r c ≠ .broken f) : Tells none none (r c) (leaf mark r c) := by
  rw [leaf]
  cases hr : r c with
  | found v next => exact .found v next
  | absent => exact .absent hmark
  | broken f => exact absurd hr (h f)

theorem readChar_ne_broken (d : Char) (c : Cursor) (f : Failure) : readChar d c ≠ .broken f := by
  intro h
  unfold readChar at h
  split at h
  · cases h
  · split at h <;> cases h

theorem sign_tells (d : Char) : Tells none none (readChar d c) (sign d c) := leaf_tells rfl (readChar_ne_broken d c)

theorem tag_found {word rest : List Char} (h : c.rest = word ++ rest) :
    tag word c = .found word (c.past word rest) := by
  simp only [tag, leaf, afterWord?_eq_some_iff.mpr h]

theorem tag_absent {word : List Char} (h : ∀ rest, c.rest ≠ word ++ rest) :
    tag word c = .failed false [(c, .reader)] := by
  have hnone : afterWord? word c.rest = none := Option.eq_none_iff_forall_ne_some.mpr fun rest hrest =>
    h rest (afterWord?_eq_some_iff.mp hrest)
  simp only [tag, leaf, hnone]

theorem run_found {p : Char → Bool} (h : c.rest.takeWhile p ≠ []) :
    run p c = .found (c.rest.takeWhile p) (c.past (c.rest.takeWhile p) (c.rest.dropWhile p)) := by
  simp only [run, leaf, List.isEmpty_iff, h, if_false]

theorem run_absent {p : Char → Bool} (h : c.rest.takeWhile p = []) : run p c = .failed false [(c, .reader)] := by
  simp only [run, leaf, List.isEmpty_iff, h, if_true]

theorem many_soft {r : Reader α} {t : Trace} (h : r c = .failed false t) : many r c = .found [] c := by
  rw [many, h]

theorem many_hard {r : Reader α} {t : Trace} (h : r c = .failed true t) : many r c = .failed true t := by
  rw [many, h]

theorem many_found {r : Reader α} {v : α} {next : Cursor} (h : r c = .found v next)
    (hlt : next.rest.length < c.rest.length) : many r c = (many r next).map (v :: ·) := by
  rw [many, h]
  simp only [hlt, dite_true]

/-! ## Gaps -/

theorem skipFrom_spaces {taken : List Char} (h : ∀ d ∈ taken, isSeparator d = true) (rest : List Char) (p : Position) :
    skipFrom .blank (taken ++ rest) p = skipFrom .blank rest (p.past taken) := by
  induction taken generalizing p with
  | nil => rfl
  | cons d taken ih =>
    rw [List.cons_append, skipFrom_separator (isSeparator_iff.mp (h d (.head _))), ih fun e he => h e (.tail _ he)]
    rfl

/-- A line comment is over in front of the line break, which is a separator. -/
theorem skipFrom_lineComment (text : List Char) (p : Position) : skipFrom .line text p =
    skipFrom .blank (text.dropWhile (!isLineBreak ·)) (p.past (text.takeWhile (!isLineBreak ·))) := by
  induction text generalizing p with
  | nil => rw [skipFrom, List.dropWhile_nil, List.takeWhile_nil, Position.past_nil, skipFrom]
  | cons d rest ih =>
    rw [skipFrom]
    by_cases hd : isLineBreak d = true
    · have hsep : d ∈ Grammar.separators := by
        rcases (Bool.or_eq_true _ _).mp hd with h | h
        · exact (beq_iff_eq.mp h) ▸ by decide
        · exact (beq_iff_eq.mp h) ▸ by decide
      have hbreak : (d == '\r' || d == '\n') = true := hd
      simp only [hbreak, if_true, List.dropWhile_cons, List.takeWhile_cons, hd, Bool.not_true, Bool.false_eq_true,
        if_false, Position.past_nil, skipFrom_separator hsep]
    · have hd : isLineBreak d = false := Bool.eq_false_iff.mpr hd
      have hbreak : (d == '\r' || d == '\n') = false := hd
      simp only [hbreak, Bool.false_eq_true, if_false, List.dropWhile_cons, List.takeWhile_cons, hd, Bool.not_false,
        if_true, ih, Position.past_cons]

theorem skipFrom_block_cons {opened : Cursor} {d : Char} {rest : List Char}
    (h : ¬ (d = '*' ∧ rest.head? = some '/')) (p : Position) :
    skipFrom (.block opened) (d :: rest) p = skipFrom (.block opened) rest (p.after d) := by
  rw [skipFrom]
  rintro more rfl rfl
  exact h ⟨rfl, rfl⟩

/-- A block comment is over behind the first sign that closes it. -/
theorem skipFrom_blockComment {opened : Cursor} {text body rest : List Char}
    (h : beforeClose? text = some (body, rest)) (p : Position) : ∃ behind, text = body ++ rest ∧
      rest = ['*', '/'] ++ behind ∧
      skipFrom (.block opened) text p = skipFrom .blank behind (p.past (body ++ ['*', '/'])) := by
  fun_induction beforeClose? text generalizing body p with
  | case1 => cases h
  | case2 d more hclose =>
    obtain ⟨rfl, hslash⟩ := hclose
    cases more with
    | nil => cases hslash
    | cons e behind =>
      cases hslash
      cases h
      exact ⟨behind, rfl, rfl, by rw [skipFrom]; rfl⟩
  | case3 d more hopen ih =>
    obtain ⟨⟨body', rest'⟩, hcut, heq⟩ := Option.map_eq_some_iff.mp h
    cases heq
    obtain ⟨behind, htext, hrest, hskip⟩ := ih hcut (p.after d)
    exact ⟨behind, by rw [htext, List.cons_append], hrest, by rw [skipFrom_block_cons hopen, hskip]; rfl⟩

theorem skipFrom_openComment {opened : Cursor} {text : List Char} (h : beforeClose? text = none) (p : Position) :
    skipFrom (.block opened) text p = .broken (.unexpected .commentEnd opened) := by
  fun_induction beforeClose? text generalizing p with
  | case1 => rw [skipFrom]
  | case2 => cases h
  | case3 d more hopen ih => rw [skipFrom_block_cons hopen, ih (Option.map_eq_none_iff.mp h)]

def Passes (r : Reader Unit) (c : Cursor) : Prop :=
  ∃ next, r c = .found () next ∧ next.rest.length < c.rest.length ∧ skipGap c = skipGap next

def Breaks (r : Reader Unit) (c : Cursor) : Prop :=
  ∃ t f, r c = .failed true t ∧ t.label? = some f ∧ skipGap c = .broken f

theorem spaces_passes (h : c.rest.takeWhile isSeparator ≠ []) : Passes spaces c := by
  refine ⟨_, by rw [spaces, run_found h]; rfl, ?_, ?_⟩
  · have hlen := congrArg List.length (List.takeWhile_append_dropWhile (p := isSeparator) (l := c.rest))
    rw [List.length_append] at hlen
    have := List.length_pos_iff.mpr h
    show (c.rest.dropWhile isSeparator).length < c.rest.length
    omega
  · have hall : ∀ d ∈ c.rest.takeWhile isSeparator, isSeparator d = true := fun d hd => List.mem_takeWhile_imp hd
    have := skipFrom_spaces hall (c.rest.dropWhile isSeparator) c.place
    rwa [List.takeWhile_append_dropWhile] at this

theorem optional_run (p : Char → Bool) (c : Cursor) :
    ∃ v, optional (run p) c = .found v (c.past (c.rest.takeWhile p) (c.rest.dropWhile p)) := by
  by_cases h : c.rest.takeWhile p = []
  · have hdrop : c.rest.dropWhile p = c.rest := by
      have := List.takeWhile_append_dropWhile (p := p) (l := c.rest)
      rwa [h, List.nil_append] at this
    refine ⟨none, ?_⟩
    rw [optional, run_absent h, h, hdrop]
    rfl
  · exact ⟨some _, by rw [optional, run_found h]⟩

theorem lineComment_passes {text : List Char} (h : c.rest = ['/', '/'] ++ text) : Passes lineComment c := by
  obtain ⟨v, hrun⟩ := optional_run (!isLineBreak ·) (c.past ['/', '/'] text)
  refine ⟨_, by rw [lineComment, tag_found h, Answer.andThen, hrun]; rfl, ?_, ?_⟩
  · have := (List.dropWhile_suffix (!isLineBreak ·) (l := text)).length_le
    show (text.dropWhile _).length < _
    rw [h, List.length_append]
    simp only [List.length_cons, List.length_nil]
    omega
  · show skipFrom .blank c.rest c.place = _
    rw [h]
    show skipFrom .blank ('/' :: '/' :: text) c.place = _
    rw [skipFrom, skipFrom_lineComment]
    rfl

theorem blockComment_passes {text : List Char} (h : c.rest = ['/', '*'] ++ text) :
    Passes blockComment c ∨ Breaks blockComment c := by
  have hskip : skipGap c = skipFrom (.block (c.past ['/', '*'] text)) text (c.place.past ['/', '*']) := by
    show skipFrom .blank c.rest c.place = _
    rw [h]
    exact skipFrom.eq_2 ..
  cases hcut : beforeClose? text with
  | none =>
    right
    have hinside : inside (c.past ['/', '*'] text) = .failed false [(c.past ['/', '*'] text, .reader)] := by
      simp only [inside, leaf, Cursor.past, hcut]
    refine ⟨[(c.past ['/', '*'] text, .reader), (c.past ['/', '*'] text, .label .commentEnd)], _, ?_, rfl,
      hskip.trans (skipFrom_openComment hcut _)⟩
    rw [blockComment, tag_found h]
    simp only [Answer.andThen, committed, labelled, hinside]
    rfl
  | some cut =>
    left
    obtain ⟨body, rest⟩ := cut
    obtain ⟨behind, htext, hrest, hblock⟩ := skipFrom_blockComment hcut (c.place.past ['/', '*'])
    have hinside : inside (c.past ['/', '*'] text) = .found body ((c.past ['/', '*'] text).past body rest) := by
      simp only [inside, leaf, Cursor.past, hcut]
    refine ⟨((c.past ['/', '*'] text).past body rest).past ['*', '/'] behind, ?_, ?_, ?_⟩
    · rw [blockComment, tag_found h]
      simp only [Answer.andThen, committed, labelled, hinside]
      rw [tag_found (by exact hrest)]
      rfl
    · show behind.length < c.rest.length
      rw [h, htext, hrest]
      simp only [List.length_append, List.length_cons]
      omega
    · rw [hskip, hblock]
      show _ = skipFrom .blank behind _
      rw [Position.past_append]
      rfl

theorem gapPiece_cases (c : Cursor) :
    (∃ t, firstOf [spaces, lineComment, blockComment] c = .failed false t ∧ skipGap c = .found () c) ∨
      Passes (firstOf [spaces, lineComment, blockComment]) c ∨
      Breaks (firstOf [spaces, lineComment, blockComment]) c := by
  by_cases hrun : c.rest.takeWhile isSeparator = []
  · have hspaces : spaces c = .failed false [(c, .reader)] := by rw [spaces, run_absent hrun]; rfl
    unfold Passes Breaks
    rw [firstOf_soft hspaces]
    by_cases hline : ∃ text, c.rest = ['/', '/'] ++ text
    · obtain ⟨text, hline⟩ := hline
      obtain ⟨next, hnext, h⟩ := lineComment_passes hline
      exact .inr (.inl ⟨next, firstOf_found hnext, h⟩)
    · have hnoLine : lineComment c = .failed false [(c, .reader)] := by
        rw [lineComment, tag_absent fun text h => hline ⟨text, h⟩]; rfl
      rw [firstOf_soft hnoLine]
      by_cases hblock : ∃ text, c.rest = ['/', '*'] ++ text
      · obtain ⟨text, hblock⟩ := hblock
        rcases blockComment_passes hblock with ⟨next, hnext, h⟩ | ⟨t, f, ht, h⟩
        · exact .inr (.inl ⟨next, firstOf_found hnext, h⟩)
        · exact .inr (.inr ⟨t, f, firstOf_hard ht, h⟩)
      · have hnoBlock : blockComment c = .failed false [(c, .reader)] := by
          rw [blockComment, tag_absent fun text h => hblock ⟨text, h⟩]; rfl
        refine .inl ⟨_, firstOf_last hnoBlock, ?_⟩
        obtain ⟨rest, place⟩ := c
        cases rest with
        | nil => rw [skipGap, skipFrom]
        | cons d rest =>
          have hd : isSeparator d = false := by
            simpa [List.takeWhile_cons] using hrun
          rw [skipGap, skipFrom, hd]
          · rfl
          · rintro more rfl rfl; exact hline ⟨more, rfl⟩
          · rintro more rfl rfl; exact hblock ⟨more, rfl⟩
  · obtain ⟨next, hnext, h⟩ := spaces_passes hrun
    exact .inr (.inl ⟨next, firstOf_found hnext, h⟩)

theorem gap_tells (c : Cursor) : Tells soft none (skipGap c) (gap c) := by
  induction hn : c.rest.length using Nat.strong_induction_on generalizing c with
  | h n ih =>
    rcases gapPiece_cases c with ⟨t, hpiece, hskip⟩ | ⟨next, hpiece, hlt, hskip⟩ | ⟨t, f, hpiece, hlabel, hskip⟩
    · rw [gap, many_soft hpiece, hskip]
      exact .found () c
    · have hgap : gap c = gap next := by
        rw [gap, many_found hpiece hlt, gap]
        cases many (firstOf [spaces, lineComment, blockComment]) next <;> rfl
      rw [hgap, hskip]
      exact ih _ (hn ▸ hlt) next rfl
    · rw [gap, many_hard hpiece, hskip]
      exact .broken (by rw [hlabel]; rfl)

/-! ## Strings -/

theorem quad_tells (c : Cursor) : Tells none none (readQuad c) (quad c) := by
  refine leaf_tells rfl fun f h => ?_
  unfold readQuad at h
  split at h
  · split at h <;> cases h
  · cases h

theorem unit_tells (c : Cursor) : Tells none none (readUnit c) (unit c) := by
  refine (quad_tells c).andThen fun unit next _ => ?_
  split
  · split
    · rename_i rest hrest
      rw [tag_found (show next.rest = ['\\', 'u'] ++ rest from hrest)]
      refine (quad_tells _).andThen fun low last _ => ?_
      split
      · cases scalar? (joinSurrogates unit low) with
        | some char => exact .found char last
        | none => exact .broken rfl
      · exact .broken rfl
    · rename_i hrest
      rw [tag_absent fun rest h => hrest rest h]
      exact .absent rfl
  · cases scalar? unit with
    | some char => exact .found char next
    | none => exact .broken rfl

theorem letterEscape?_eq_lookup (d : Char) : letterEscape? d = letterTable.lookup d := by
  unfold letterEscape?
  split
  case h_10 h₁ h₂ h₃ h₄ h₅ h₆ h₇ h₈ h₉ =>
    have hne {e : Char} (h : d = e → False) : (d == e) = false := beq_eq_false_iff_ne.mpr h
    simp only [letterTable, List.lookup_cons, List.lookup_nil, hne h₁, hne h₂, hne h₃, hne h₄, hne h₅, hne h₆,
      hne h₇, hne h₈, hne h₉]
  all_goals rfl

theorem letters_found {d char : Char} {rest : List Char} {table : List (Char × Char)} (hc : c.rest = d :: rest)
    (h : table.lookup d = some char) : firstOf (table.map letter) c = .found char (c.past [d] rest) := by
  induction table with
  | nil => cases h
  | cons l table ih =>
    obtain ⟨e, char⟩ := l
    by_cases he : d = e
    · subst he
      rw [List.lookup_cons, beq_self_eq_true] at h
      cases h
      exact firstOf_found (by rw [letter, sign_found hc]; rfl)
    · rw [List.lookup_cons, beq_eq_false_iff_ne.mpr he] at h
      have hsoft : letter (e, char) c = .failed false [(c, .char e)] := by
        rw [letter, sign_absent (by rw [hc]; simpa using he)]
        rfl
      cases table with
      | nil => cases h
      | cons l' table => exact (firstOf_soft hsoft).trans (ih h)

theorem letters_absent (table : List (Char × Char)) (hne : table ≠ [])
    (h : ∀ d ∈ c.rest.head?, table.lookup d = none) :
    ∃ t, firstOf (table.map letter) c = .failed false t ∧ t.label? = none := by
  induction table with
  | nil => exact absurd rfl hne
  | cons l table ih =>
    obtain ⟨e, char⟩ := l
    have hother : ∀ d ∈ c.rest.head?, (d == e) = false ∧ table.lookup d = none := by
      intro d hd
      have := h d hd
      rw [List.lookup_cons] at this
      cases hde : d == e with
      | true => rw [hde] at this; cases this
      | false => rw [hde] at this; exact ⟨rfl, this⟩
    have hsoft : letter (e, char) c = .failed false [(c, .char e)] := by
      rw [letter, sign_absent]
      · rfl
      · intro hhead
        have := (hother e hhead).1
        rw [beq_self_eq_true] at this
        cases this
    cases table with
    | nil => exact ⟨_, firstOf_last hsoft, rfl⟩
    | cons l' table =>
      obtain ⟨t, ht, hlabel⟩ := ih (List.cons_ne_nil _ _) fun d hd => (hother d hd).2
      exact ⟨t, (firstOf_soft hsoft).trans ht, hlabel⟩

/-- The escape by number has failed softly, and no letter is there: the escape fails softly. -/
theorem escape_absent {t : Trace} (hu : (sign 'u' c).andThen (fun _ => unit) = .failed false t)
    (h : ∀ d ∈ c.rest.head?, letterTable.lookup d = none) : Tells none outer .absent
      (firstOf ((fun c => (sign 'u' c).andThen fun _ => unit) :: letterTable.map letter) c) := by
  obtain ⟨t', ht, hlabel⟩ := letters_absent letterTable (List.cons_ne_nil _ _) h
  have hskip : firstOf ((fun c => (sign 'u' c).andThen fun _ => unit) :: letterTable.map letter) c =
      firstOf (letterTable.map letter) c := firstOf_soft hu
  rw [hskip, ht]
  exact .absent hlabel

theorem escape_tells (c : Cursor) : Tells soft none (readEscape c) (committed escape c) := by
  unfold readEscape
  split
  · rename_i hrest
    have hu := sign_absent (c := c) (d := 'u') (by simp [hrest])
    exact Tells.committed (o := .absent) (Tells.labelled (escape_absent (by rw [hu]; rfl) (by simp [hrest])))
  · rename_i letter rest hrest
    have hhead {d : Char} (hd : d ∈ c.rest.head?) : d = letter := by
      rw [hrest] at hd
      exact (Option.some.inj hd).symm
    split
    · rename_i hletter
      subst hletter
      have hunit : (sign 'u' c).andThen (fun _ => unit) = unit (c.past ['u'] rest) := by rw [sign_found hrest]; rfl
      have htells : Tells none (some (.unexpected .escape c)) _ _ := (unit_tells (c.past ['u'] rest)).within
      refine Tells.committed (Tells.labelled ?_)
      generalize readUnit (c.past ['u'] rest) = o at htells ⊢
      generalize unit (c.past ['u'] rest) = answer at hunit htells
      cases htells with
      | found v next =>
        rw [firstOf_found hunit]
        exact .found v next
      | broken h =>
        rw [firstOf_hard hunit]
        exact .broken h
      | absent h => exact escape_absent hunit fun d hd => by rw [hhead hd]; rfl
    · rename_i hletter
      have hu := sign_absent (c := c) (d := 'u') (by rw [hrest]; simpa using hletter)
      rw [letterEscape?_eq_lookup]
      cases hlookup : letterTable.lookup letter with
      | some char =>
        refine Tells.committed (o := .found char (c.past [letter] rest)) (Tells.labelled ?_)
        have hskip : firstOf ((fun c => (sign 'u' c).andThen fun _ => unit) :: letterTable.map Traced.letter) c =
            firstOf (letterTable.map Traced.letter) c := firstOf_soft (by rw [hu]; rfl)
        rw [hskip, letters_found hrest hlookup]
        exact .found _ _
      | none =>
        exact Tells.committed (o := .absent)
          (Tells.labelled (escape_absent (by rw [hu]; rfl) fun d hd => by rw [hhead hd]; exact hlookup))

theorem committed_ne_soft {r : Reader α} {t : Trace} : committed r c ≠ .failed false t := by
  rw [committed]
  cases r c <;> simp

theorem readEscape_ne_absent (c : Cursor) : readEscape c ≠ .absent := by
  intro h
  have : Tells none none _ _ := escape_tells c
  rw [h] at this
  cases hc : committed escape c with
  | found v next => rw [hc] at this; cases this
  | failed hard t =>
    rw [hc] at this
    cases this
    exact committed_ne_soft hc

section Bodies

variable {quote : Char}

/-- What a string has when a part of it has been read. -/
theorem body_step {part : List Char} {next : Cursor} (h : fragment quote c = .found part next)
    (hlt : next.rest.length < c.rest.length) : body quote c = (body quote next).map (part ++ ·) := by
  rw [body, many_found h hlt, body]
  cases many (fragment quote) next with
  | failed hard t => rfl
  | found parts last =>
    show ((labelled .stringEnd (committed (sign quote)) last).map fun _ => (part :: parts).flatten) =
      ((labelled .stringEnd (committed (sign quote)) last).map fun _ => parts.flatten).map (part ++ ·)
    cases labelled .stringEnd (committed (sign quote)) last with
    | failed hard t => rfl
    | found v last => rfl

/-- The characters that stand for themselves are one part, however many there are. -/
theorem body_run (h : c.rest.takeWhile (isRaw quote) ≠ []) : body quote c =
    (body quote (c.past (c.rest.takeWhile (isRaw quote)) (c.rest.dropWhile (isRaw quote)))).map
      (c.rest.takeWhile (isRaw quote) ++ ·) := by
  refine body_step (firstOf_found (run_found h)) ?_
  have hlen := congrArg List.length (List.takeWhile_append_dropWhile (p := isRaw quote) (l := c.rest))
  rw [List.length_append] at hlen
  have := List.length_pos_iff.mpr h
  simp only [Cursor.past]
  omega

theorem body_raw {d : Char} {rest : List Char} (hc : c.rest = d :: rest) (hd : isRaw quote d = true) :
    body quote c = (body quote (c.past [d] rest)).map (d :: ·) := by
  have htake : c.rest.takeWhile (isRaw quote) = d :: rest.takeWhile (isRaw quote) := by
    rw [hc, List.takeWhile_cons, if_pos hd]
  have hdrop : c.rest.dropWhile (isRaw quote) = rest.dropWhile (isRaw quote) := by
    rw [hc, List.dropWhile_cons, if_pos hd]
  rw [body_run (by rw [htake]; exact List.cons_ne_nil _ _), htake, hdrop]
  by_cases hmore : rest.takeWhile (isRaw quote) = []
  · have hrest : rest.dropWhile (isRaw quote) = rest := by
      have := List.takeWhile_append_dropWhile (p := isRaw quote) (l := rest)
      rwa [hmore, List.nil_append] at this
    rw [hmore, hrest]
    rfl
  · rw [body_run (c := c.past [d] rest) hmore, Answer.map_map]
    rfl

theorem fragment_soft (quote : Char) (hraw : c.rest.takeWhile (isRaw quote) = []) (hslash : c.rest.head? ≠ some '\\') :
    ∃ t, fragment quote c = .failed false t := by
  have hescaped : escaped c = .failed false [(c, .char '\\')] := by
    rw [escaped, sign_absent hslash]
    rfl
  exact ⟨_, (firstOf_soft (run_absent hraw)).trans (firstOf_last hescaped)⟩

/-- At a backslash the string goes on with what the escape behind it is. -/
theorem fragment_escape (quote : Char) {rest : List Char} (hc : c.rest = '\\' :: rest) :
    fragment quote c = firstOf [escaped] c ∧
      escaped c = (committed escape (c.past ['\\'] rest)).map fun char => [char] := by
  have hraw : c.rest.takeWhile (isRaw quote) = [] := by
    rw [hc, List.takeWhile_cons, if_neg (by simp [isRaw])]
  refine ⟨firstOf_soft (run_absent hraw), ?_⟩
  rw [escaped, sign_found hc]
  rfl

theorem body_tells (hquote : quote ≠ '\\') (c : Cursor) : Tells soft none (quotedBody quote c) (body quote c) := by
  fun_induction quotedBody quote c with
  | case1 c hc =>
    obtain ⟨t, ht⟩ := fragment_soft quote (c := c) (by rw [hc]; rfl) (by rw [hc]; simp)
    rw [body, many_soft ht]
    simp only [Answer.andThen, labelled, committed]
    rw [sign_absent (by rw [hc]; simp)]
    exact .broken rfl
  | case2 c rest hc =>
    obtain ⟨t, ht⟩ := fragment_soft quote (c := c)
      (by rw [hc, List.takeWhile_cons, if_neg (by simp [isRaw])]) (by rw [hc]; simpa using hquote)
    rw [body, many_soft ht]
    simp only [Answer.andThen, labelled, committed]
    rw [sign_found hc]
    exact .found _ _
  | case3 c rest char next hc hne he ih =>
    have hescape : Tells none none _ _ := escape_tells (c.past ['\\'] rest)
    rw [he] at hescape
    generalize hanswer : committed escape (c.past ['\\'] rest) = answer at hescape
    cases hescape
    obtain ⟨hfragment, hescaped⟩ := fragment_escape quote hc
    have hpart : fragment quote c = .found [char] next :=
      hfragment.trans (firstOf_found (by rw [hescaped, hanswer]; rfl))
    have hlt := readEscape_shorter he
    rw [body_step hpart (by rw [hc]; simp only [Cursor.past] at hlt; simp only [List.length_cons]; omega)]
    exact ih.map _
  | case4 c rest hc hne he => exact absurd he (readEscape_ne_absent _)
  | case5 c rest f hc hne he =>
    have hescape : Tells none none _ _ := escape_tells (c.past ['\\'] rest)
    rw [he] at hescape
    generalize hanswer : committed escape (c.past ['\\'] rest) = answer at hescape
    cases hescape with
    | @broken t f h =>
      obtain ⟨hfragment, hescaped⟩ := fragment_escape quote hc
      have hpart : fragment quote c = .failed true t :=
        hfragment.trans (firstOf_hard (by rw [hescaped, hanswer]; rfl))
      rw [body, many_hard hpart]
      exact Tells.within (.broken h)
  | case6 c d rest hc hne hslash ih =>
    rw [body_raw hc (by simp [isRaw, hne, hslash])]
    exact ih.map _

end Bodies

theorem quotedBody_ne_absent (quote : Char) (c : Cursor) : quotedBody quote c ≠ .absent := by
  fun_induction quotedBody quote c with
  | case1 | case2 | case5 => simp
  | case3 c rest char next hc hne he ih => exact map_ne_absent ih
  | case4 c rest hc hne he => exact absurd he (readEscape_ne_absent _)
  | case6 c d rest hc hne hslash ih => exact map_ne_absent ih

theorem string_tells (c : Cursor) : Tells none none (readString c) (string c) := by
  have hquoted {quote : Char} {rest : List Char} (hc : c.rest = quote :: rest) :
      quoted quote c = body quote (c.past [quote] rest) := by
    rw [quoted, sign_found hc]
    rfl
  have hother {quote : Char} (hc : c.rest.head? ≠ some quote) : quoted quote c = .failed false [(c, .char quote)] := by
    rw [quoted, sign_absent hc]
    rfl
  unfold readString
  split
  · rename_i rest hc
    refine Tells.map _ (Tells.firstOf_head ?_ (quotedBody_ne_absent _ _))
    rw [hquoted hc]
    exact body_tells (by decide) _
  · rename_i rest hc
    refine Tells.map _ ?_
    rw [firstOf_soft (hother (by rw [hc]; simp))]
    refine Tells.firstOf_head ?_ (quotedBody_ne_absent _ _)
    rw [hquoted hc]
    exact body_tells (by decide) _
  · rename_i hdouble hsingle
    rw [string, firstOf_soft (hother (head?_ne_of_ne_cons hdouble)),
      firstOf_last (hother (head?_ne_of_ne_cons hsingle))]
    exact .absent rfl

end Reshape.Traced
