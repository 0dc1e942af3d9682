/-
  Reshape.Proofs.Json.Labels — what a failure says was expected is what is missing there.

  Which failure comes to light depends on who gives up: an item that is no value ends a list
  without a word, a member must go on once its key was read, and the innermost reader that
  knows what it wanted has the say. Whoever it is, what it says is true of the place
  (`Expected.Fits`): the sign is not there, no value begins there that ends where a value may, the text is
  over inside a string, the comment is never closed, what follows the backslash is no escape.
  One lemma for each reader says so of its failures and where they are (`Reported`), and
  induction on the depth says so of the readers of nested values, as long as the depth is enough for the text.
-/

import Reshape.Application
import Reshape.Proofs.Json.Parsing
import Reshape.Proofs.Json.Progress
import Reshape.Proofs.Json.Steady

namespace Reshape

open Cursor (Ahead)
open Grammar (Escape Quad Spells)

/-- What is so where the expectation is reported, of the text before the place and of the text from it on. -/
def Expected.Fits (before after : List Char) : Expected → Prop
  | .value => ∀ v rest, Spells after v rest → ¬ Literal.Ends rest
  | .colon => after.head? ≠ some ':'
  | .memberEnd => after.head? ≠ some '\x7d'
  | .itemEnd => after.head? ≠ some ']'
  | .stringEnd => after = []
  | .commentEnd => ['/', '*'] <:+ before ∧ ¬ ['*', '/'] <:+: after
  | .escape => ['\\'] <:+ before ∧ ∀ char rest, ¬ Escape after char rest
  | .surrogatePair => ['\\', 'u'] <:+ before ∧ ∃ high low between rest, Quad after high ('\\' :: 'u' :: between) ∧
      (0xD800 ≤ high ∧ high < 0xDC00) ∧ Quad between low rest ∧ ¬ (0xDC00 ≤ low ∧ low < 0xE000)
  | .unicodeEscape => ['\\', 'u'] <:+ before ∧ ∃ unit rest, Quad after unit rest ∧ 0xDC00 ≤ unit ∧ unit < 0xE000

def Failure.Fits (before : List Char) : Failure → Prop
  | .unexpected wanted c => wanted.Fits before c.rest
  | .trailing c => c.rest ≠ []

/-- However much more there is before the place. -/
theorem Failure.Fits.prepend {f : Failure} {before : List Char} (h : f.Fits before) (more : List Char) :
    f.Fits (more ++ before) := by
  cases f with
  | trailing c => exact h
  | unexpected wanted c =>
    cases wanted with
    | commentEnd | escape | surrogatePair | unicodeEscape => exact ⟨h.1.trans (List.suffix_append more before), h.2⟩
    | _ => exact h

/-- The failure is at a place from the cursor on, has the position that belongs there, and what it says is so;
    `seen` stands in front of the cursor. -/
def Failure.Reported (seen : List Char) (c : Cursor) (f : Failure) : Prop :=
  ∃ taken, c.rest = taken ++ f.cursor.rest ∧ f.cursor.place = c.place.past taken ∧ f.Fits (seen ++ taken)

def Outcome.Explained {α : Type} (seen : List Char) (c : Cursor) (o : Outcome α) : Prop :=
  ∀ f, o = .broken f → f.Reported seen c

theorem Failure.Reported.back {c mid : Cursor} {f : Failure} (h : f.Reported [] mid) (hc : c.Ahead mid) :
    f.Reported [] c := by
  obtain ⟨taken, hrest, hplace⟩ := hc
  obtain ⟨more, hrest', hplace', hfits⟩ := h
  refine ⟨taken ++ more, by rw [hrest, hrest', List.append_assoc], ?_, hfits.prepend taken⟩
  rw [hplace', hplace, Position.past_append]

/-- What stands in front of the cursor may as well be behind an earlier one. -/
theorem Failure.Reported.behind {c : Cursor} {f : Failure} {before seen rest : List Char}
    (h : f.Reported (before ++ seen) (c.past seen rest)) (hc : c.rest = seen ++ rest) : f.Reported before c := by
  obtain ⟨more, hrest, hplace, hfits⟩ := h
  refine ⟨seen ++ more, ?_, ?_, List.append_assoc before seen more ▸ hfits⟩
  · rw [hc, List.append_assoc, ← hrest]
    rfl
  · rw [hplace, Position.past_append]
    rfl

theorem Failure.reported_here {wanted : Expected} {seen : List Char} {c : Cursor} (h : wanted.Fits seen c.rest) :
    (Failure.unexpected wanted c).Reported seen c := ⟨[], rfl, rfl, by rwa [List.append_nil]⟩

namespace Outcome.Explained

variable {α β : Type} {seen : List Char} {c mid : Cursor} {o : Outcome α}

theorem found (a : α) (next : Cursor) : Explained seen c (.found a next) := nofun

theorem absent : Explained seen c (.absent : Outcome α) := nofun

/-- A failure is handed on as it is. -/
theorem broken {f : Failure} (ho : Explained seen c o) (h : o = .broken f) :
    Explained seen c (.broken f : Outcome β) := by
  rintro f' e
  cases e
  exact ho f h

theorem here {wanted : Expected} (h : wanted.Fits seen c.rest) :
    Explained seen c (.broken (.unexpected wanted c) : Outcome α) := by
  rintro f e
  cases e
  exact Failure.reported_here h

theorem back (h : Explained [] mid o) (hc : c.Ahead mid) : Explained [] c o := fun f e => (h f e).back hc

theorem behind {before rest : List Char} (h : Explained (before ++ seen) (c.past seen rest) o)
    (hc : c.rest = seen ++ rest) : Explained before c o := fun f e => (h f e).behind hc

theorem andThen {g : α → Cursor → Outcome β} (ha : o.Advances c) (ho : Explained [] c o)
    (hg : ∀ a next, o = .found a next → Explained [] next (g a next)) : Explained [] c (o.andThen g) := by
  cases o with
  | found a next => exact (hg a next rfl).back ha
  | absent => exact absent
  | broken f => exact ho.broken rfl

theorem map (f : α → β) (ho : Explained seen c o) : Explained seen c (o.map f) := by
  cases o with
  | found a next => exact found _ _
  | absent => exact absent
  | broken f' => exact ho.broken rfl

theorem required {wanted : Expected} (ho : Explained seen c o) (h : o = .absent → wanted.Fits seen c.rest) :
    Explained seen c (o.required wanted c) := by
  cases o with
  | absent => exact here (h rfl)
  | _ => exact ho

end Outcome.Explained

open Outcome (Explained)

/-! ## Gaps -/

/-- A comment in which the text ends was opened in this text, or it is the one that is being read. -/
theorem skipFrom_explained {state : GapState} {text : List Char} {p : Position} {f : Failure}
    (h : skipFrom state text p = .broken f) : f.Reported [] ⟨text, p⟩ ∨
      ∃ opened, state = .block opened ∧ f = .unexpected .commentEnd opened ∧ ¬ ['*', '/'] <:+: text := by
  have later : ∀ taken {rest p}, f.Reported [] ⟨rest, Position.past p taken⟩ → f.Reported [] ⟨taken ++ rest, p⟩ :=
    fun taken _ _ hf => hf.back (Cursor.ahead_past rfl)
  fun_induction skipFrom state text p with
  | case1 rest p ih =>
    rcases ih h with hf | ⟨opened, e, -⟩
    · exact .inl (later ['/', '/'] hf)
    · cases e
  | case2 rest p ih =>
    rcases ih h with hf | ⟨opened, e, rfl, hno⟩
    · exact .inl (later ['/', '*'] hf)
    · cases e
      exact .inl ⟨['/', '*'], rfl, rfl, List.suffix_rfl, hno⟩
  | case3 d rest p _ _ _ ih =>
    rcases ih h with hf | ⟨opened, e, -⟩
    · exact .inl (later [d] hf)
    · cases e
  | case4 => cases h
  | case5 => cases h
  | case6 d rest p ih =>
    rcases ih h with hf | ⟨opened, e, -⟩
    · exact .inl (later [d] hf)
    · split at e
      · cases e
      · cases e
  | case7 => cases h
  | case8 opened rest p ih =>
    rcases ih h with hf | ⟨opened, e, -⟩
    · exact .inl (later ['*', '/'] hf)
    · cases e
  | case9 opened d rest p hclose ih =>
    rcases ih h with hf | ⟨opened', e, hf, hno⟩
    · exact .inl (later [d] hf)
    · refine .inr ⟨opened', e, hf, ?_⟩
      rw [List.infix_cons_iff]
      rintro (⟨more, hmore⟩ | hlater)
      · cases hmore
        exact hclose _ rfl rfl
      · exact hno hlater
  | case10 opened p =>
    cases h
    exact .inr ⟨opened, rfl, rfl, by simp⟩

theorem skipGap_explained (c : Cursor) : Explained [] c (skipGap c) := by
  intro f h
  rcases skipFrom_explained h with hf | ⟨opened, e, -, -⟩
  · exact hf
  · cases e

/-! ## Strings -/

theorem readQuad_ne_broken (c : Cursor) (f : Failure) : readQuad c ≠ .broken f := by
  unfold readQuad
  split
  · split <;> nofun
  · nofun

/-- Units that name no character are reported where their digits begin. -/
theorem readUnit_broken {c : Cursor} {f : Failure} (h : readUnit c = .broken f) :
    ∃ wanted, f = .unexpected wanted c ∧ wanted.Fits ['\\', 'u'] c.rest := by
  unfold readUnit at h
  obtain hno | ⟨unit, next, hq, h⟩ := Outcome.andThen_eq_broken h
  · exact absurd hno (readQuad_ne_broken c f)
  have hquad := readQuad_sound hq
  split at h
  · rename_i hhigh
    split at h
    · rename_i rest hrest
      obtain hno | ⟨low, last, hq', h⟩ := Outcome.andThen_eq_broken h
      · exact absurd hno (readQuad_ne_broken _ f)
      have hquad' := readQuad_sound hq'
      rw [hrest] at hquad
      split at h
      · rename_i hlow
        -- Two surrogates always name a character together.
        have hs : ∃ char, scalar? (joinSurrogates unit low) = some char := by
          rw [isHighSurrogate_iff] at hhigh
          rw [isLowSurrogate_iff] at hlow
          exact ⟨_, scalar?_eq_some_iff.2 ⟨by unfold joinSurrogates; omega, rfl⟩⟩
        obtain ⟨char, hchar⟩ := hs
        rw [hchar] at h
        cases h
      · rename_i hlow
        cases h
        rw [isLowSurrogate_iff] at hlow
        exact ⟨_, rfl, List.suffix_rfl, unit, low, rest, _, hquad, isHighSurrogate_iff.1 hhigh, hquad', hlow⟩
    · cases h
  · rename_i hhigh
    split at h
    · cases h
    · rename_i hs
      cases h
      refine ⟨_, rfl, List.suffix_rfl, unit, next.rest, hquad, ?_⟩
      rw [isHighSurrogate_iff] at hhigh
      have hlt := hquad.lt
      have hcode : ¬ (unit < 0xD800 ∨ 0xDFFF < unit ∧ unit < 0x110000) := fun hcode => by
        have := scalar?_eq_some_iff.2 ⟨hcode, rfl⟩
        rw [hs] at this
        cases this
      omega

theorem readUnit_explained (c : Cursor) : Explained ['\\', 'u'] c (readUnit c) := by
  intro f h
  obtain ⟨wanted, rfl, hfits⟩ := readUnit_broken h
  exact Failure.reported_here hfits

theorem readEscape_explained (c : Cursor) : Explained ['\\'] c (readEscape c) := by
  -- Where no escape was found there is none.
  have hnone : (∀ char next, readEscape c ≠ .found char next) → Expected.escape.Fits ['\\'] c.rest := by
    refine fun hno => ⟨List.suffix_rfl, fun char rest he => ?_⟩
    obtain ⟨q, hread⟩ := readEscape_complete he c.place
    exact hno char _ hread
  intro f hf
  have hfits := hnone fun char next hfound => by
    rw [hf] at hfound
    cases hfound
  unfold readEscape at hf
  split at hf
  · cases hf
    exact Failure.reported_here hfits
  · rename_i letter rest hc
    split at hf
    · rename_i hu
      subst hu
      exact (Explained.behind (readUnit_explained (c.past ['u'] rest)) hc).required (fun _ => hfits) f hf
    · split at hf
      · cases hf
      · cases hf
        exact Failure.reported_here hfits

theorem quotedBody_explained (quote : Char) (c : Cursor) : Explained [] c (quotedBody quote c) := by
  fun_induction quotedBody quote c with
  | case1 c hc => exact .here hc
  | case2 c rest hc => exact .found _ _
  | case3 c rest char between hc _ he ih =>
    have hbetween := (readEscape_advances _).of_found he
    exact (ih.map _).back ((Cursor.ahead_past hc).trans hbetween)
  | case4 => exact .absent
  | case5 c rest f hc _ he =>
    exact (Explained.behind (readEscape_explained (c.past ['\\'] rest)) hc).broken he
  | case6 c d rest hc _ _ ih => exact (ih.map _).back (Cursor.ahead_past hc)

theorem readString_explained (c : Cursor) : Explained [] c (readString c) := by
  unfold readString
  split
  · rename_i hc
    exact ((quotedBody_explained _ _).map _).back (Cursor.ahead_past hc)
  · rename_i hc
    exact ((quotedBody_explained _ _).map _).back (Cursor.ahead_past hc)
  · exact .absent

/-! ## Values -/

/-- A scalar that breaks off is a string that does, or no value at all. -/
theorem readScalar_broken {c : Cursor} {f : Failure} (h : readScalar c = .broken f) :
    readString c = .broken f ∨ f = .unexpected .value c := by
  unfold readScalar at h
  cases hs : readString c with
  | found s next =>
    rw [hs] at h
    cases h
  | broken f' =>
    rw [hs] at h
    cases h
    exact .inl rfl
  | absent =>
    rw [hs] at h
    simp only [Outcome.map, Outcome.andThen] at h
    split at h
    · cases h
      exact .inr rfl
    · rcases readKeyword_cases c with hk | ⟨word, s, rest, -, -, hk⟩
      · rw [hk] at h
        cases h
      · rw [hk] at h
        cases h
    · split at h
      · cases h
      · cases h

/-- Where the reader of values finds nothing though it may go as deep as it needs to, no value stands that ends
    where one may. -/
theorem no_value {depth : Nat} {c : Cursor} (hd : 3 * c.rest.length ≤ depth)
    (h : ∀ t next, readNode depth c ≠ .found t next) : Expected.value.Fits [] c.rest := by
  intro v rest hv hends
  obtain ⟨t, q, hread, -⟩ := (complete depth).node hv hends hd c.place
  exact h t _ hread

theorem readChar_absent {wanted : Char} {c : Cursor} (h : readChar wanted c = .absent) :
    c.rest.head? ≠ some wanted := by
  intro hhead
  obtain ⟨rest, hc⟩ := List.head?_eq_some_iff.mp hhead
  simp [readChar, hc] at h

theorem readChar_explained (wanted : Char) (c : Cursor) : Explained [] c (readChar wanted c) := by
  unfold readChar
  split
  · exact .absent
  · split
    · exact .found _ _
    · exact .absent

theorem readEnd_explained (close : Char) (wanted : Expected)
    (hw : ∀ after : List Char, after.head? ≠ some close → wanted.Fits [] after) (nonempty : Bool) (c : Cursor) :
    Explained [] c (readEnd nonempty close wanted c) := by
  unfold readEnd
  refine .andThen (skipGap_advances c) (skipGap_explained c) fun _ c₁ _ => ?_
  have hend : ∀ c₂ : Cursor, c₁.Ahead c₂ → Explained [] c₁ ((skipGap c₂).andThen fun _ c =>
      (readChar close c).required wanted c) := fun c₂ h =>
    .back (.andThen (skipGap_advances c₂) (skipGap_explained c₂) fun _ c _ =>
      .required (readChar_explained close c) fun habsent => hw _ (readChar_absent habsent)) h
  cases nonempty with
  | false => exact hend c₁ (.refl c₁)
  | true =>
    simp only [if_true]
    split
    · rename_i next hcomma
      exact hend next ((readChar_advances ',' c₁).of_found hcomma)
    · exact hend c₁ (.refl c₁)

structure AllExplained (depth : Nat) : Prop where
  node : ∀ c, 3 * c.rest.length ≤ depth → Explained [] c (readNode depth c)
  items : ∀ c, 3 * c.rest.length + 1 ≤ depth → Explained [] c (readItems depth c)
  moreItems : ∀ c, 3 * c.rest.length ≤ depth → Explained [] c (readMoreItems depth c)
  member : ∀ c, 3 * c.rest.length + 1 ≤ depth → Explained [] c (readMember depth c)
  members : ∀ c, 3 * c.rest.length + 2 ≤ depth → Explained [] c (readMembers depth c)
  moreMembers : ∀ c, 3 * c.rest.length ≤ depth → Explained [] c (readMoreMembers depth c)

theorem allExplained_zero : AllExplained 0 where
  node _ _ := by rw [readNode]; exact .absent
  items c _ := by rw [readItems]; exact .found _ _
  moreItems c _ := by rw [readMoreItems]; exact .found _ _
  member _ _ := by rw [readMember]; exact .absent
  members c _ := by rw [readMembers]; exact .found _ _
  moreMembers c _ := by rw [readMoreMembers]; exact .found _ _

namespace AllExplained

variable {depth : Nat} (ih : AllExplained depth) (c : Cursor)
include ih

theorem node_succ (hd : 3 * c.rest.length ≤ depth + 1) : Explained [] c (readNode (depth + 1) c) := by
  have hno := no_value hd
  rw [readNode] at hno ⊢
  split
  · rename_i rest hc
    rw [hc, List.length_cons] at hd
    refine .back (.andThen ((allAdvance depth).members _) (ih.members _ (by simp only; omega)) ?_)
      (Cursor.ahead_after hc)
    exact fun members last _ => .andThen (readEnd_advances _ _ _ last)
      (readEnd_explained '\x7d' .memberEnd (fun _ h => h) _ last) fun _ next _ => .found _ _
  · rename_i rest hc
    rw [hc, List.length_cons] at hd
    refine .back (.andThen ((allAdvance depth).items _) (ih.items _ (by simp only; omega)) ?_)
      (Cursor.ahead_after hc)
    exact fun items last _ => .andThen (readEnd_advances _ _ _ last)
      (readEnd_explained ']' .itemEnd (fun _ h => h) _ last) fun _ next _ => .found _ _
  · rename_i hobject harray
    cases hs : readScalar c with
    | found s next => exact .found _ _
    | absent => exact .absent
    | broken f =>
      rintro f' e
      cases e
      rcases readScalar_broken hs with hstring | rfl
      · exact readString_explained c f hstring
      · refine Failure.reported_here (hno fun t next hfound => ?_)
        simp [hs, Outcome.map, Outcome.andThen] at hfound

/-- Behind a gap too. -/
theorem nodeBehindGap (hd : 3 * c.rest.length ≤ depth) :
    Explained [] c ((skipGap c).andThen fun _ c => readNode depth c) := by
  refine .andThen (skipGap_advances c) (skipGap_explained c) fun _ next hgap => ih.node next ?_
  have := ((skipGap_advances c).of_found hgap).length_le
  omega

omit ih in
theorem comma : Explained [] c ((skipGap c).andThen fun _ c => readChar ',' c) :=
  .andThen (skipGap_advances c) (skipGap_explained c) fun _ c _ => readChar_explained ',' c

theorem items_succ (hd : 3 * c.rest.length + 1 ≤ depth + 1) : Explained [] c (readItems (depth + 1) c) := by
  rw [readItems]
  have hitem := ih.nodeBehindGap c (by omega)
  have hadvances := (allAdvance depth).nodeBehindGap c
  split
  · exact .found _ _
  · rename_i hbroken
    exact hitem.broken hbroken
  · rename_i item next hfound
    have hnext := hadvances.of_found hfound
    have hle := hnext.length_le
    exact ((ih.moreItems next (by omega)).map _).back hnext

theorem member_succ (hd : 3 * c.rest.length + 1 ≤ depth + 1) : Explained [] c (readMember (depth + 1) c) := by
  rw [readMember]
  refine .andThen (skipGap_advances c) (skipGap_explained c) fun _ start hstart => ?_
  refine .andThen (readString_advances start) (readString_explained start) fun key c₁ hkey => ?_
  refine .andThen (skipGap_advances c₁) (skipGap_explained c₁) fun _ c₂ hgap => ?_
  refine .andThen ((readChar_advances ':' c₂).required .colon) ?_ fun _ c₃ hcolon => ?_
  · exact .required (readChar_explained ':' c₂) fun habsent => readChar_absent habsent
  refine .andThen (skipGap_advances c₃) (skipGap_explained c₃) fun _ c₄ hgap' => ?_
  have h := ((skipGap_advances c).of_found hstart).length_le
  have h₁ := ((readString_advances start).of_found hkey).length_le
  have h₂ := ((skipGap_advances c₁).of_found hgap).length_le
  have h₃ := (((readChar_advances ':' c₂).required .colon).of_found hcolon).length_le
  have h₄ := ((skipGap_advances c₃).of_found hgap').length_le
  have hd₄ : 3 * c₄.rest.length ≤ depth := by omega
  exact (Explained.required (ih.node c₄ hd₄) fun habsent => no_value hd₄ fun t next hfound => by
    rw [habsent] at hfound
    cases hfound).map _

theorem members_succ (hd : 3 * c.rest.length + 2 ≤ depth + 1) : Explained [] c (readMembers (depth + 1) c) := by
  rw [readMembers]
  have hmember := ih.member c (by omega)
  split
  · exact .found _ _
  · rename_i hbroken
    exact hmember.broken hbroken
  · rename_i m next hfound
    have hnext := ((allAdvance depth).member c).of_found hfound
    have hle := hnext.length_le
    exact ((ih.moreMembers next (by omega)).map _).back hnext

theorem moreItems_succ (hd : 3 * c.rest.length ≤ depth + 1) : Explained [] c (readMoreItems (depth + 1) c) := by
  rw [readMoreItems]
  split
  · exact .found _ _
  · rename_i hbroken
    exact (comma c).broken hbroken
  · rename_i behind hcomma
    have hlt := comma_shorter hcomma
    have hbehind := (AllAdvance.comma c).of_found hcomma
    have hitem := ih.nodeBehindGap behind (by omega)
    have hadvances := (allAdvance depth).nodeBehindGap behind
    split
    · exact .found _ _
    · rename_i hbroken
      exact (hitem.broken hbroken).back hbehind
    · rename_i item next hfound
      have hnext := hadvances.of_found hfound
      have hle := hnext.length_le
      exact ((ih.moreItems next (by omega)).map _).back (hbehind.trans hnext)

theorem moreMembers_succ (hd : 3 * c.rest.length ≤ depth + 1) :
    Explained [] c (readMoreMembers (depth + 1) c) := by
  rw [readMoreMembers]
  split
  · exact .found _ _
  · rename_i hbroken
    exact (comma c).broken hbroken
  · rename_i behind hcomma
    have hlt := comma_shorter hcomma
    have hbehind := (AllAdvance.comma c).of_found hcomma
    have hmember := ih.member behind (by omega)
    split
    · exact .found _ _
    · rename_i hbroken
      exact (hmember.broken hbroken).back hbehind
    · rename_i m next hfound
      have hnext := ((allAdvance depth).member behind).of_found hfound
      have hle := hnext.length_le
      exact ((ih.moreMembers next (by omega)).map _).back (hbehind.trans hnext)

end AllExplained

theorem allExplained (depth : Nat) : AllExplained depth := by
  induction depth with
  | zero => exact allExplained_zero
  | succ depth ih =>
    exact ⟨ih.node_succ, ih.items_succ, ih.moreItems_succ, ih.member_succ, ih.members_succ, ih.moreMembers_succ⟩

/-! ## Whole texts -/

theorem reading_explained (text : List Char) : Explained [] (.start text) (reading text) := by
  unfold reading
  refine .andThen (skipGap_advances _) (skipGap_explained _) fun _ start hgap => ?_
  have hle : start.rest.length ≤ text.length := ((skipGap_advances (.start text)).of_found hgap).length_le
  have hd : 3 * start.rest.length ≤ readDepth text := by
    unfold readDepth
    omega
  refine .andThen (((allAdvance _).node start).required .value) ?_ fun tree c _ => ?_
  · refine .required ((allExplained _).node start hd) fun habsent => no_value hd fun t next hfound => ?_
    rw [habsent] at hfound
    cases hfound
  · exact .andThen (skipGap_advances c) (skipGap_explained c) fun _ last _ => .found _ _

/-- Why a text is not read is reported at a place in the text, and is so there. -/
theorem readRaw_reported {text : List Char} {f : Failure} (h : readRaw text = .error f) :
    f.Reported [] (.start text) := by
  rcases readRaw_eq_error h with hbroken | ⟨t, last, hfound, hne, rfl⟩
  · exact reading_explained text f hbroken
  · obtain ⟨taken, hrest, hplace⟩ := (reading_advances text).of_found hfound
    exact ⟨taken, hrest, hplace, hne⟩

/-- A text that is no document is not read, without the mark that may lead it. -/
theorem readRaw_of_parse {text : String} {f : Failure} (h : Document.parse text = .error f) :
    readRaw (withoutMark text.toList) = .error f := by
  unfold Document.parse Tree.parse at h
  cases hr : readRaw (withoutMark text.toList) with
  | ok t =>
    rw [hr] at h
    cases h
  | error f' =>
    rw [hr] at h
    exact congrArg Except.error (Except.error.inj h)

/-- The end of the text is reported where the text ends, and nowhere else. -/
theorem Failure.foundText_eq_iff {c : Cursor} : foundText c = "found end of input" ↔ c.rest = [] := by
  unfold foundText
  split
  · rename_i hc
    simp [hc]
  · rename_i d rest hc
    rw [hc]
    refine ⟨fun h => ?_, fun h => absurd h (List.cons_ne_nil d rest)⟩
    have hchars := congrArg String.toList h
    simp at hchars

/-- A text that is no document is reported as malformed at the position of a place in it: either the document is
    over there and the text is not, or what the message says was expected is missing there, and the message goes on
    to say which character stands there instead, in a form that can be read, or that the text ends there. -/
theorem parse_error_reported {text : String} {f : Failure} (h : Document.parse text = .error f) :
    ∃ before after detail, withoutMark text.toList = before ++ after ∧
      Fault.ofFailure f = .parsing detail (some (.behind before)) ∧
      (detail = "Additional text found after the end of the document" ∧ after ≠ [] ∨
        ∃ wanted found, detail = Expected.text wanted ++ ", " ++ found ∧ wanted.Fits before after ∧
          (found = "found end of input" ↔ after = []) ∧
          ∀ c rest, after = c :: rest → found = "found '" ++ shown c ++ "'") := by
  obtain ⟨before, htext, hplace, hfits⟩ := readRaw_reported (readRaw_of_parse h)
  have hposition : f.position = .behind before := hplace.trans (Position.past_start before)
  refine ⟨before, f.cursor.rest, f.text, htext, by rw [Fault.ofFailure, hposition], ?_⟩
  cases f with
  | trailing c => exact .inl ⟨rfl, hfits⟩
  | unexpected wanted c =>
    refine .inr ⟨wanted, Failure.foundText c, rfl, hfits, ?_, fun d rest hc => ?_⟩
    · exact Failure.foundText_eq_iff
    · rw [Failure.foundText, show c.rest = d :: rest from hc]

def complaint? (text : String) : Option (Position × String) :=
  match Document.parse text with
  | .error f => some (f.position, f.text)
  | .ok _ => none

theorem complaint?_eq_some {text message : String} {p : Position} (h : complaint? text = some (p, message)) :
    ∃ f, Document.parse text = .error f ∧ f.position = p ∧ f.text = message := by
  unfold complaint? at h
  split at h
  · rename_i f hf
    cases h
    exact ⟨f, hf, rfl, rfl⟩
  · cases h

def strayBackslash : String := "[1,\n \"a\\q\"]"

/-- What is wrong is reported behind the backslash. -/
theorem strayBackslash_reported : ∃ f, Document.parse strayBackslash = .error f ∧ f.position = ⟨2, 5⟩ ∧
    f.text = "invalid escape sequence, found 'q'" ∧
    ∃ before after, withoutMark strayBackslash.toList = before ++ after ∧ f.position = .behind before := by
  have hcomplaint : complaint? strayBackslash = some (⟨2, 5⟩, "invalid escape sequence, found 'q'") := by
    decide +kernel
  obtain ⟨f, hf, hposition, htext⟩ := complaint?_eq_some hcomplaint
  obtain ⟨before, after, detail, hsplit, hfault, -⟩ := parse_error_reported hf
  refine ⟨f, hf, hposition, htext, before, after, hsplit, ?_⟩
  exact Option.some.inj (congrArg Fault.position hfault)

end Reshape
