/-
  Reshape.Proofs.Json.Reports — what comes to light of a failure is a label.

  The reader that leaves marks and the reader that names what it expected say the same of
  every text (`document_eq`): the same tree, or the failure that is the innermost label of
  the trace. So a report never falls back on a character, on the input as such or on its
  end (`failure_of_report`). The tokens are compared piece by piece with the scan of a
  literal; values follow by induction on the depth (`AllTell`), a lemma for each reader.
-/

import Reshape.Proofs.Json.Steady
import Reshape.Proofs.Json.Traces

namespace Reshape.Traced

variable {α β : Type} {soft outer : Option Failure} {o : Outcome α} {c : Cursor}

/-! ## Numbers -/

open Literal (scanSign scanWhole scanFraction? scanExponentSign scanExponent?)

theorem minus_eq (c : Cursor) : ∃ minus : Option Unit, minus.isSome = (scanSign c.rest).1 ∧
    optional (sign '-') c =
      .found minus (c.past (if (scanSign c.rest).1 then ['-'] else []) (scanSign c.rest).2) := by
  unfold scanSign
  split
  · rename_i rest hc
    exact ⟨some (), rfl, by rw [optional, sign_found hc]; rfl⟩
  · rename_i hminus
    exact ⟨none, rfl, by rw [optional, sign_absent (head?_ne_of_ne_cons hminus)]; rfl⟩

theorem whole_eq (c : Cursor) :
    ((scanWhole c.rest).1 = [] ∧ ∃ t, firstOf [tag ['0'], run isDigit] c = .failed false t ∧ t.label? = none) ∨
      (scanWhole c.rest).1 ≠ [] ∧
      firstOf [tag ['0'], run isDigit] c =
        .found (scanWhole c.rest).1 (c.past (scanWhole c.rest).1 (scanWhole c.rest).2) := by
  unfold scanWhole
  split
  · rename_i rest hrest
    exact .inr ⟨List.cons_ne_nil _ _, firstOf_found (tag_found hrest)⟩
  · rename_i hzero
    rw [firstOf_soft (tag_absent hzero)]
    by_cases h : c.rest.takeWhile isDigit = []
    · exact .inl ⟨h, _, firstOf_last (run_absent h), rfl⟩
    · exact .inr ⟨h, firstOf_found (run_found h)⟩

theorem fraction_eq (c : Cursor) :
    (scanFraction? c.rest = none ∧ ∃ t, optional fraction c = .failed true t ∧ t.label? = none) ∨
      ∃ digits rest found, scanFraction? c.rest = some (digits, rest) ∧ found.getD [] = digits ∧
        optional fraction c = .found found (c.past (if digits.isEmpty then [] else '.' :: digits) rest) := by
  unfold scanFraction?
  split
  · rename_i rest hc
    have hfraction : fraction c = committed (run isDigit) (c.past ['.'] rest) := by rw [fraction, sign_found hc]; rfl
    by_cases h : rest.takeWhile isDigit = []
    · refine .inl ⟨by simp only [h, List.isEmpty_nil, if_true], [(c.past ['.'] rest, .reader)], ?_, rfl⟩
      rw [optional, hfraction, committed, run_absent (by exact h)]
    · refine .inr ⟨_, _, some (rest.takeWhile isDigit), if_neg (by simpa using h), rfl, ?_⟩
      rw [optional, hfraction, committed, run_found (by exact h), if_neg (by simpa using h)]
      rfl
  · rename_i hpoint
    refine .inr ⟨[], c.rest, none, rfl, rfl, ?_⟩
    rw [optional, fraction, sign_absent (head?_ne_of_ne_cons hpoint)]
    rfl

theorem exponentSign_eq (c : Cursor) : optional (oneOf ['+', '-']) c =
    .found (scanExponentSign c.rest).1 (c.past (scanExponentSign c.rest).1.toList (scanExponentSign c.rest).2) := by
  unfold scanExponentSign
  split
  · rename_i rest hc
    simp only [optional, oneOf, leaf, hc]
    rfl
  · rename_i rest hc
    simp only [optional, oneOf, leaf, hc]
    rfl
  · rename_i hplus hminus
    obtain ⟨rest, place⟩ := c
    cases rest with
    | nil => rfl
    | cons d rest =>
      have hd : d ∉ ['+', '-'] := by
        intro hd
        simp only [List.mem_cons, List.not_mem_nil, or_false] at hd
        rcases hd with rfl | rfl
        · exact hplus rest rfl
        · exact hminus rest rfl
      simp only [optional, oneOf, leaf, hd, if_false]
      rfl

theorem power_eq (mark : Char) (c : Cursor) :
    ((scanExponentSign c.rest).2.takeWhile isDigit = [] ∧ ∃ t, power mark c = .failed false t ∧ t.label? = none) ∨
      (scanExponentSign c.rest).2.takeWhile isDigit ≠ [] ∧
      power mark c = .found ⟨mark, (scanExponentSign c.rest).1, (scanExponentSign c.rest).2.takeWhile isDigit⟩
        (c.past ((scanExponentSign c.rest).1.toList ++ (scanExponentSign c.rest).2.takeWhile isDigit)
          ((scanExponentSign c.rest).2.dropWhile isDigit)) := by
  rw [power, exponentSign_eq]
  by_cases h : (scanExponentSign c.rest).2.takeWhile isDigit = []
  · refine .inl ⟨h, [(c.past (scanExponentSign c.rest).1.toList (scanExponentSign c.rest).2, .reader)], ?_, rfl⟩
    simp only [Answer.andThen]
    rw [run_absent (by exact h)]
    rfl
  · refine .inr ⟨h, ?_⟩
    simp only [Answer.andThen]
    rw [run_found (by exact h), Cursor.past_past]
    rfl

theorem exponent_eq (c : Cursor) :
    (scanExponent? c.rest = none ∧ ∃ t, optional exponent c = .failed true t ∧ t.label? = none) ∨
      ∃ e rest, scanExponent? c.rest = some (e, rest) ∧
        optional exponent c = .found e (c.past (Literal.exponentChars e) rest) := by
  obtain ⟨text, place⟩ := c
  cases text with
  | nil => exact .inr ⟨none, [], rfl, rfl⟩
  | cons d rest =>
    by_cases hd : d = 'e' ∨ d = 'E'
    · have hmark : exponent ⟨d :: rest, place⟩ = committed (power d) ⟨rest, place.after d⟩ := by
        have hmem : d ∈ ['e', 'E'] := by simpa using hd
        simp only [exponent, oneOf, leaf, hmem, if_true]
        rfl
      simp only [scanExponent?, hd, if_true]
      rcases power_eq d ⟨rest, place.after d⟩ with ⟨hempty, t, ht, hlabel⟩ | ⟨hdigits, hfound⟩
      · simp only at hempty
        exact .inl ⟨by simp only [hempty, List.isEmpty_nil, if_true], t, by rw [optional, hmark, committed, ht], hlabel⟩
      · simp only at hdigits
        refine .inr ⟨_, _, if_neg (by simpa using hdigits), ?_⟩
        rw [optional, hmark, committed, hfound]
        rfl
    · refine .inr ⟨none, d :: rest, by simp only [scanExponent?, hd, if_false], ?_⟩
      have hmem : d ∉ ['e', 'E'] := by simpa using hd
      simp only [optional, exponent, oneOf, leaf, hmem, if_false]
      rfl

def readNumber (c : Cursor) : Outcome Scalar :=
  match Literal.scan c.rest with
  | .broken => .broken (.unexpected .value c)
  | .none => .absent
  | .literal l rest =>
    match l.number? with
    | some n => .found (.number n) (c.past l.chars rest)
    | none => .absent

theorem number_tells (c : Cursor) : Tells none (some (.unexpected .value c)) (readNumber c) (number c) := by
  obtain ⟨minus, hminus, hsign⟩ := minus_eq c
  rw [number, hsign, readNumber, Literal.scan]
  generalize scanSign c.rest = signed at hminus ⊢
  obtain ⟨negative, text₁⟩ := signed
  simp only [Answer.andThen] at hminus ⊢
  generalize hc₁ : c.past (if negative then ['-'] else []) text₁ = c₁
  obtain rfl : c₁.rest = text₁ := by rw [← hc₁]; rfl
  rcases whole_eq c₁ with ⟨hempty, t, ht, hlabel⟩ | ⟨hne, hwhole⟩
  · rw [ht]
    simp only [hempty, List.isEmpty_nil, if_true]
    exact .absent hlabel
  · rw [hwhole]
    generalize scanWhole c₁.rest = scanned at hne ⊢
    obtain ⟨whole, text₂⟩ := scanned
    generalize hc₂ : c₁.past whole text₂ = c₂
    obtain rfl : c₂.rest = text₂ := by rw [← hc₂]; rfl
    simp only [List.isEmpty_iff, if_neg hne]
    rcases fraction_eq c₂ with ⟨hnone, t, ht, hlabel⟩ | ⟨fraction, text₃, found, hscan, hfound, hfraction⟩
    · rw [hnone, ht]
      exact .broken (by rw [hlabel]; rfl)
    · rw [hscan, hfraction]
      generalize hc₃ : c₂.past (if fraction.isEmpty then [] else '.' :: fraction) text₃ = c₃
      obtain rfl : c₃.rest = text₃ := by rw [← hc₃]; rfl
      rcases exponent_eq c₃ with ⟨hnone, t, ht, hlabel⟩ | ⟨exponent, rest, hscan, hexponent⟩
      · simp only
        rw [hnone, ht]
        exact .broken (by rw [hlabel]; rfl)
      · simp only
        rw [hscan, hexponent, hminus, hfound]
        have hnext : c₃.past (Literal.exponentChars exponent) rest =
            c.past (Literal.chars ⟨negative, whole, fraction, exponent⟩) rest := by
          rw [← hc₃, Cursor.past_past, ← hc₂, Cursor.past_past, ← hc₁, Cursor.past_past, Literal.chars]
          simp only [List.append_assoc]
        simp only [hnext]
        cases Literal.number? ⟨negative, whole, fraction, exponent⟩ with
        | some n => exact .found _ _
        | none => exact .absent rfl

/-! ## Scalars -/

theorem keyword_tells (c : Cursor) : Tells none none (readKeyword c) (keyword c) := by
  simp only [keyword, firstOf, tag, leaf, readKeyword]
  cases afterWord? "true".toList c.rest with
  | some rest => exact .found _ _
  | none =>
    cases afterWord? "false".toList c.rest with
    | some rest => exact .found _ _
    | none =>
      cases afterWord? "null".toList c.rest with
      | some rest => exact .found _ _
      | none => exact .absent rfl

/-- Where a number stands there is no word. -/
theorem readKeyword_of_literal {l : Literal} {rest : List Char} (h : Literal.scan c.rest = .literal l rest) :
    readKeyword c = .absent := by
  rcases readKeyword_cases c with habsent | ⟨word, s, rest', hword, hc, -⟩
  · exact habsent
  · rw [hc] at h
    simp only [keywords, List.mem_cons, List.not_mem_nil, or_false, Prod.mk.injEq] at hword
    rcases hword with ⟨rfl, -⟩ | ⟨rfl, -⟩ | ⟨rfl, -⟩ <;> cases h

/-- Where no string begins, a scalar is a number or else a word. -/
theorem readScalar_of_absent (h : readString c = .absent) :
    (readNumber c = .absent → readScalar c = readKeyword c) ∧
      (readNumber c ≠ .absent → readScalar c = readNumber c) := by
  rw [readScalar, h, readNumber]
  simp only [Outcome.map, Outcome.andThen]
  cases hscan : Literal.scan c.rest with
  | broken => exact ⟨by simp, fun _ => rfl⟩
  | none => exact ⟨fun _ => rfl, fun hne => absurd rfl hne⟩
  | literal l rest =>
    cases hnumber : l.number? with
    | some n => exact ⟨by simp [hnumber], fun _ => by simp only [hnumber]⟩
    | none =>
      simp only [hnumber]
      exact ⟨fun _ => (readKeyword_of_literal hscan).symm, fun hne => absurd rfl hne⟩

theorem scalar_tells (c : Cursor) : Tells none (some (.unexpected .value c)) ((readScalar c).map .scalar)
    (firstOf [fun c => (string c).map fun s => (Content.scalar (.string s) : Content Tree),
      fun c => (number c).map .scalar, fun c => (keyword c).map .scalar] c) := by
  have hstring : Tells none (some (.unexpected .value c)) _ _ := (string_tells c).within
  by_cases hs : readString c = .absent
  · rw [hs] at hstring
    refine Tells.firstOf_next (hstring.map _) ?_
    have hnumber := number_tells c
    by_cases hn : readNumber c = .absent
    · rw [hn] at hnumber
      rw [(readScalar_of_absent hs).1 hn]
      exact Tells.firstOf_next (hnumber.map _) (Tells.firstOf_last ((keyword_tells c).within.map _))
    · rw [(readScalar_of_absent hs).2 hn]
      exact Tells.firstOf_head (hnumber.map _) (map_ne_absent hn)
  · have hscalar : readScalar c = (readString c).map .string := by
      rw [readScalar]
      cases hread : readString c with
      | absent => exact absurd hread hs
      | _ => rfl
    rw [hscalar, map_map]
    exact Tells.firstOf_head (hstring.map _) (map_ne_absent hs)

/-! ## Lists -/

/-- A reader behind a gap, committed to, is committed to behind the gap. -/
theorem committed_gap {g : Cursor → Outcome α} {r : Reader α}
    (h : ∀ next, skipGap c = .found () next → Tells soft none (g next) (committed r next)) :
    Tells soft none ((skipGap c).andThen fun _ => g) (committed (fun c => (gap c).andThen fun _ => r) c) := by
  rw [committed_andThen]
  have hgap : Tells none none _ _ := gap_tells c
  refine (Tells.committed_of_ne hgap (skipGap_ne_absent c)).andThen fun v next hnext => ?_
  exact h next hnext

theorem lastComma_eq (nonempty : Bool) (c : Cursor) : lastComma nonempty c =
    .found () (if nonempty then match readChar ',' c with | .found _ next => next | _ => c else c) := by
  cases nonempty with
  | false => rfl
  | true =>
    simp only [lastComma, if_true, optional, sign, leaf]
    cases h : readChar ',' c with
    | found v next => rfl
    | absent => rfl
    | broken f => exact absurd h (readChar_ne_broken _ _ _)

theorem ending_tells (nonempty : Bool) (close : Char) (wanted : Expected) (c : Cursor) :
    Tells soft none (readEnd nonempty close wanted c) (committed (ending nonempty close wanted) c) := by
  refine committed_gap fun c₁ _ => ?_
  rw [committed_andThen]
  have hcomma : committed (lastComma nonempty) c₁ = lastComma nonempty c₁ := by rw [committed, lastComma_eq]
  rw [hcomma, lastComma_eq]
  exact committed_gap fun c₂ _ => Tells.committed (Tells.labelled (sign_tells close).within)

section Lists

variable {element : Reader α} {more : Reader (List α)} {back : Cursor} {elementSoft : Option Failure}
  {listing : Outcome (List α)} {g : Cursor → Outcome (List α)}

/-- A list of what the reader finds ends where nothing is found, and goes on behind what is. -/
theorem listed_tells (h : Tells elementSoft none o (element c)) (hmore : ∀ next, Tells none none (g next) (more next))
    (habsent : o = .absent → listing = .found [] back) (hbroken : ∀ f, o = .broken f → listing = .broken f)
    (hfound : ∀ v next, o = .found v next → listing = (g next).map (v :: ·)) :
    Tells none none listing (listed element more back c) := by
  rw [listed]
  generalize element c = a at h
  cases h with
  | found v next =>
    rw [hfound v next rfl]
    exact (hmore next).map _
  | absent h =>
    rw [habsent rfl]
    exact .found [] back
  | broken h =>
    rw [hbroken _ rfl]
    exact .broken h

theorem comma_tells (c : Cursor) :
    Tells none none ((skipGap c).andThen fun _ c => readChar ',' c) (behindGap (sign ',') c) :=
  (gap_tells c).andThen fun _ _ _ => sign_tells ','

theorem listedOn_tells (habsent : (skipGap c).andThen (fun _ c => readChar ',' c) = .absent → listing = .found [] c)
    (hbroken : ∀ f, (skipGap c).andThen (fun _ c => readChar ',' c) = .broken f → listing = .broken f)
    (hfound : ∀ next, (skipGap c).andThen (fun _ c => readChar ',' c) = .found () next →
      Tells none none listing (listed element more c next)) : Tells none none listing (listedOn element more c) := by
  rw [listedOn]
  have h := comma_tells c
  generalize behindGap (sign ',') c = a at h
  generalize ho : (skipGap c).andThen (fun _ c => readChar ',' c) = o at h
  cases h with
  | found v next =>
    simp only [comma_shorter ho, if_true]
    exact hfound next ho
  | absent h =>
    rw [habsent ho]
    exact .found [] c
  | broken h =>
    rw [hbroken _ ho]
    exact .broken h

end Lists

/-! ## Values -/

structure AllTell (depth : Nat) : Prop where
  node : ∀ c, Tells (some (.unexpected .value c)) none (readNode depth c) (node depth c)
  items : ∀ c, Tells none none (readItems depth c) (items depth c)
  moreItems : ∀ c, Tells none none (readMoreItems depth c) (moreItems depth c)
  member : ∀ c, Tells none none (readMember depth c) (member depth c)
  members : ∀ c, Tells none none (readMembers depth c) (members depth c)
  moreMembers : ∀ c, Tells none none (readMoreMembers depth c) (moreMembers depth c)

theorem allTell_zero : AllTell 0 where
  node _ := Tells.labelled (r := firstOf []) (.absent rfl)
  items c := .found [] c
  moreItems c := .found [] c
  member _ := .absent rfl
  members c := .found [] c
  moreMembers c := .found [] c

theorem readEnd_ne_absent (nonempty : Bool) (close : Char) (wanted : Expected) (c : Cursor) :
    readEnd nonempty close wanted c ≠ .absent :=
  Outcome.andThen_ne_absent (skipGap_ne_absent c) fun _ _ =>
    Outcome.andThen_ne_absent (skipGap_ne_absent _) fun _ _ => Outcome.required_ne_absent _ _ _

/-- What an array or an object has between its brackets: a list, which is never absent, and its end. -/
theorem bracketed_tells {list : Outcome (List α)} {r : Reader (List α)} {close : Char} {wanted : Expected}
    (f : List α → Content Tree) (h : Tells none none list (r c)) (hne : list ≠ .absent) :
    Tells soft none
      (list.andThen fun vs last => (readEnd (!vs.isEmpty) close wanted last).map fun _ => f vs)
      (committed (fun c => (r c).andThen fun vs c => (ending (!vs.isEmpty) close wanted c).map fun _ => f vs) c) := by
  rw [committed_andThen]
  refine (Tells.committed_of_ne h hne).andThen fun vs last _ => ?_
  rw [committed_map]
  exact (ending_tells _ _ _ last).map _

theorem object_absent (r : Reader (List (Member Tree))) (h : c.rest.head? ≠ some '\x7b') :
    Tells none none .absent (object r c) := by
  rw [object, sign_absent h]
  exact .absent rfl

theorem array_absent (r : Reader (List Tree)) (h : c.rest.head? ≠ some '[') :
    Tells none none .absent (array r c) := by
  rw [array, sign_absent h]
  exact .absent rfl

theorem readMoreItems_ne_absent (depth : Nat) (c : Cursor) : readMoreItems depth c ≠ .absent := by
  induction depth generalizing c with
  | zero => rw [readMoreItems]; simp
  | succ depth ih =>
    rw [readMoreItems]
    split
    · simp
    · simp
    · split
      · simp
      · simp
      · exact map_ne_absent (ih _)

theorem readItems_ne_absent (depth : Nat) (c : Cursor) : readItems depth c ≠ .absent := by
  cases depth with
  | zero => rw [readItems]; simp
  | succ depth =>
    rw [readItems]
    split
    · simp
    · simp
    · exact map_ne_absent (readMoreItems_ne_absent _ _)

theorem readMoreMembers_ne_absent (depth : Nat) (c : Cursor) : readMoreMembers depth c ≠ .absent := by
  induction depth generalizing c with
  | zero => rw [readMoreMembers]; simp
  | succ depth ih =>
    rw [readMoreMembers]
    split
    · simp
    · simp
    · split
      · simp
      · simp
      · exact map_ne_absent (ih _)

theorem readMembers_ne_absent (depth : Nat) (c : Cursor) : readMembers depth c ≠ .absent := by
  cases depth with
  | zero => rw [readMembers]; simp
  | succ depth =>
    rw [readMembers]
    split
    · simp
    · simp
    · exact map_ne_absent (readMoreMembers_ne_absent _ _)

namespace AllTell

variable {depth : Nat} (ih : AllTell depth) (c : Cursor)
include ih

theorem nodeBehindGap : ∃ soft, Tells soft none ((skipGap c).andThen fun _ c => readNode depth c)
    (behindGap (Traced.node depth) c) := by
  cases hgap : skipGap c with
  | found v next =>
    refine ⟨some (.unexpected .value next), hgap ▸ (gap_tells c).andThen fun v' next' h => ?_⟩
    rw [hgap] at h
    cases h
    exact ih.node next
  | absent => exact absurd hgap (skipGap_ne_absent c)
  | broken f => exact ⟨none, hgap ▸ (gap_tells c).andThen fun v next h => by rw [hgap] at h; cases h⟩

theorem object_tells {rest : List Char} (hc : c.rest = '\x7b' :: rest) : Tells none none
    ((readMembers depth ⟨rest, c.place.after '\x7b'⟩).andThen fun ms last =>
      (readEnd (!ms.isEmpty) '\x7d' .memberEnd last).map fun _ => .object ms) (object (Traced.members depth) c) := by
  rw [object, sign_found hc]
  exact bracketed_tells .object (ih.members _) (readMembers_ne_absent _ _)

theorem array_tells {rest : List Char} (hc : c.rest = '[' :: rest) : Tells none none
    ((readItems depth ⟨rest, c.place.after '['⟩).andThen fun ts last =>
      (readEnd (!ts.isEmpty) ']' .itemEnd last).map fun _ => .array ts) (array (Traced.items depth) c) := by
  rw [array, sign_found hc]
  exact bracketed_tells .array (ih.items _) (readItems_ne_absent _ _)

theorem node_succ : Tells (some (.unexpected .value c)) none (readNode (depth + 1) c) (Traced.node (depth + 1) c) := by
  have hplaced {α : Type} (list : Outcome α) (e : α → Cursor → Outcome Unit) (f : α → Content Tree) :
      (list.andThen fun vs last => (e vs last).andThen fun _ next => .found ⟨c.place, f vs⟩ next) =
        (list.andThen fun vs last => (e vs last).map fun _ => f vs).map (Tree.mk c.place) := by
    cases list with
    | found vs last => exact (map_map _ _ (e vs last)).symm
    | _ => rfl
  rw [readNode, Traced.node]
  split
  · rename_i rest hc
    rw [hplaced]
    refine (Tells.labelled (Tells.firstOf_head (ih.object_tells c hc).within ?_)).map _
    exact Outcome.andThen_ne_absent (readMembers_ne_absent _ _) fun _ _ => map_ne_absent (readEnd_ne_absent _ _ _ _)
  · rename_i rest hc
    rw [hplaced]
    have hobject := object_absent (c := c) (Traced.members depth) (by rw [hc]; simp)
    refine (Tells.labelled (hobject.firstOf_next (Tells.firstOf_head (ih.array_tells c hc).within ?_))).map _
    exact Outcome.andThen_ne_absent (readItems_ne_absent _ _) fun _ _ => map_ne_absent (readEnd_ne_absent _ _ _ _)
  · rename_i hbrace hbracket
    rw [← map_map Content.scalar (Tree.mk c.place)]
    have hobject := object_absent (Traced.members depth) (head?_ne_of_ne_cons hbrace)
    have harray := array_absent (Traced.items depth) (head?_ne_of_ne_cons hbracket)
    exact (Tells.labelled (hobject.firstOf_next (harray.firstOf_next (scalar_tells c)))).map _

theorem items_succ : Tells none none (readItems (depth + 1) c) (Traced.items (depth + 1) c) := by
  obtain ⟨_, h⟩ := ih.nodeBehindGap c
  refine listed_tells h ih.moreItems (fun e => ?_) (fun f e => ?_) (fun v next e => ?_)
  all_goals rw [readItems, e]

theorem moreItems_succ : Tells none none (readMoreItems (depth + 1) c) (Traced.moreItems (depth + 1) c) := by
  refine listedOn_tells (fun e => ?_) (fun f e => ?_) fun next hcomma => ?_
  · rw [readMoreItems, e]
  · rw [readMoreItems, e]
  · obtain ⟨_, h⟩ := ih.nodeBehindGap next
    refine listed_tells h ih.moreItems (fun e => ?_) (fun f e => ?_) (fun v next e => ?_)
    all_goals simp only [readMoreItems, hcomma, e]

theorem member_succ : Tells none none (readMember (depth + 1) c) (Traced.member (depth + 1) c) := by
  rw [readMember, Traced.member, memberOf]
  refine (gap_tells c).andThen fun _ start _ => (string_tells start).andThen fun key c₁ _ => ?_
  refine committed_gap fun c₂ _ => ?_
  rw [committed_andThen]
  refine (Tells.committed (Tells.labelled (sign_tells ':').within)).andThen fun _ c₃ _ => committed_gap fun c₄ _ => ?_
  rw [committed_map]
  exact (Tells.committed (ih.node c₄)).map _

theorem members_succ : Tells none none (readMembers (depth + 1) c) (Traced.members (depth + 1) c) := by
  refine listed_tells (ih.member c) ih.moreMembers (fun e => ?_) (fun f e => ?_) (fun v next e => ?_)
  all_goals rw [readMembers, e]

theorem moreMembers_succ : Tells none none (readMoreMembers (depth + 1) c) (Traced.moreMembers (depth + 1) c) := by
  refine listedOn_tells (fun e => ?_) (fun f e => ?_) fun next hcomma => ?_
  · rw [readMoreMembers, e]
  · rw [readMoreMembers, e]
  · refine listed_tells (ih.member next) ih.moreMembers (fun e => ?_) (fun f e => ?_) (fun v next e => ?_)
    all_goals simp only [readMoreMembers, hcomma, e]

end AllTell

theorem allTell (depth : Nat) : AllTell depth := by
  induction depth with
  | zero => exact allTell_zero
  | succ depth ih =>
    exact ⟨ih.node_succ, ih.items_succ, ih.moreItems_succ, ih.member_succ, ih.members_succ, ih.moreMembers_succ⟩

/-! ## Documents -/

theorem report_of_label {t : Trace} {f : Failure} (h : t.label? = some f) : t.report = .failure f := by
  unfold Trace.report
  rw [h]

/-- Reading with marks finds the same document or reports the same failure, so that a label always is what comes
    to light. -/
theorem document_eq (text : List Char) : document text = (readRaw text).mapError .failure := by
  rw [document, readRaw, behindGap]
  have hgap : Tells none none _ _ := gap_tells (.start text)
  generalize hskip : skipGap (.start text) = o at hgap ⊢
  generalize gap (.start text) = a at hgap ⊢
  cases hgap with
  | absent h => exact absurd hskip (skipGap_ne_absent _)
  | broken h =>
    rw [Option.or_none] at h
    show Except.error _ = _
    rw [report_of_label h]
    rfl
  | found v start =>
    have hnode := (allTell (readDepth text)).node start
    simp only [Answer.andThen, Outcome.andThen]
    generalize readNode (readDepth text) start = o at hnode ⊢
    generalize node (readDepth text) start = a at hnode ⊢
    cases hnode with
    | absent h =>
      simp only [report_of_label h]
      rfl
    | broken h =>
      rw [Option.or_none] at h
      simp only [report_of_label h]
      rfl
    | found tree c =>
      have hgap : Tells none none _ _ := gap_tells c
      simp only [Outcome.required]
      generalize hskip : skipGap c = o at hgap ⊢
      generalize gap c = a at hgap ⊢
      cases hgap with
      | absent h => exact absurd hskip (skipGap_ne_absent _)
      | broken h =>
        rw [Option.or_none] at h
        simp only [report_of_label h]
        rfl
      | found v last =>
        obtain ⟨rest, place⟩ := last
        cases rest <;> rfl

/-- What comes to light is the failure of the reader without marks, never what is fallen back on. -/
theorem failure_of_report {text : List Char} {r : Report} (h : document text = .error r) :
    ∃ f, r = .failure f ∧ readRaw text = .error f := by
  rw [document_eq] at h
  cases hread : readRaw text with
  | ok t =>
    rw [hread] at h
    cases h
  | error f =>
    rw [hread] at h
    cases h
    exact ⟨f, rfl, rfl⟩

end Reshape.Traced
