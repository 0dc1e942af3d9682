/-
  Reshape.Proofs.Json.Progress — the readers go forward and keep count of where they are.

  Wherever a reader stops, with what it has found or broken, it has come to from the cursor it
  began at: the text there is what is left of its text, and the position is the one that belongs
  to that place (`Outcome.Advances`). One lemma for each reader, from those it is made of;
  the readers that call each other are taken together, by induction on their depth (`allAdvance`).

  - `reading`: a whole text is read in three steps; `readRaw_eq_ok` and `readRaw_eq_error` say what
    it means for the text that they succeed or fail.
-/

import Reshape.Proofs.Json.Tokens
import Reshape.Proofs.Text.Places

namespace Reshape

open Cursor (Ahead)

/-- Where the reading has stopped, if it has, is ahead of the cursor. -/
def Outcome.Advances {α : Type} (c : Cursor) : Outcome α → Prop
  | .found _ next => c.Ahead next
  | .absent => True
  | .broken f => c.Ahead f.cursor

namespace Outcome.Advances

variable {α β : Type} {c mid : Cursor} {o : Outcome α}

theorem unexpected (h : c.Ahead mid) (wanted : Expected) : Advances c (.broken (.unexpected wanted mid) : Outcome α) :=
  h

/-- What advances from further on advances from before. -/
theorem trans (h : c.Ahead mid) (ho : Advances mid o) : Advances c o := by
  cases o with
  | found a next => exact h.trans ho
  | absent => trivial
  | broken f => exact h.trans ho

theorem of_found {a : α} {next : Cursor} (h : Advances c o) (ho : o = .found a next) : c.Ahead next := by
  subst ho
  exact h

theorem of_broken {f : Failure} (h : Advances c o) (ho : o = .broken f) : c.Ahead f.cursor := by
  subst ho
  exact h

theorem andThen {g : α → Cursor → Outcome β} (ho : Advances c o) (hg : ∀ a next, Advances next (g a next)) :
    Advances c (o.andThen g) := by
  cases o with
  | found a next => exact trans ho (hg a next)
  | absent => trivial
  | broken f => exact ho

theorem map (f : α → β) (ho : Advances c o) : Advances c (o.map f) := ho.andThen fun _ next => .refl next

theorem required (ho : Advances c o) (wanted : Expected) : Advances c (o.required wanted c) := by
  cases o with
  | absent => exact .refl c
  | _ => exact ho

end Outcome.Advances

open Outcome (Advances)

/-! ## Gaps -/

/-- A comment that is being read may have been opened before the place that the reader has come to. -/
theorem skipFrom_advances {state : GapState} {text : List Char} {p : Position} {c : Cursor}
    (hc : c.Ahead ⟨text, p⟩) (hopened : ∀ opened, state = .block opened → c.Ahead opened) :
    Advances c (skipFrom state text p) := by
  have past : ∀ {text p}, c.Ahead ⟨text, p⟩ → ∀ taken rest, text = taken ++ rest → c.Ahead ⟨rest, p.past taken⟩ :=
    fun h taken rest e => h.trans (Cursor.ahead_past e)
  fun_induction skipFrom state text p with
  | case1 rest p ih => exact ih (past hc ['/', '/'] rest rfl) (by simp)
  | case2 rest p ih =>
    have hopen := past hc ['/', '*'] rest rfl
    refine ih hopen fun opened e => ?_
    cases e
    exact hopen
  | case3 d rest p _ _ _ ih => exact ih (past hc [d] rest rfl) (by simp)
  | case4 => exact hc
  | case5 => exact hc
  | case6 d rest p ih =>
    refine ih (past hc [d] rest rfl) fun opened e => ?_
    split at e
    · cases e
    · cases e
  | case7 => exact hc
  | case8 opened rest p ih => exact ih (past hc ['*', '/'] rest rfl) (by simp)
  | case9 opened d rest p _ ih => exact ih (past hc [d] rest rfl) hopened
  | case10 opened p => exact hopened opened rfl

theorem skipGap_advances (c : Cursor) : Advances c (skipGap c) := skipFrom_advances (.refl c) (by simp)

/-! ## Strings and scalars -/

theorem readQuad_advances (c : Cursor) : Advances c (readQuad c) := by
  unfold readQuad
  split
  · rename_i hc
    split
    · exact Cursor.ahead_past hc
    · trivial
  · trivial

theorem readUnit_advances (c : Cursor) : Advances c (readUnit c) := by
  unfold readUnit
  cases hq : readQuad c with
  | absent => trivial
  | broken f => exact (readQuad_advances c).of_broken hq
  | found unit next =>
    have hnext := (readQuad_advances c).of_found hq
    simp only [Outcome.andThen]
    split
    · split
      · rename_i rest hrest
        have hsecond : next.Ahead (next.past ['\\', 'u'] rest) := Cursor.ahead_past hrest
        have hlow := hnext.trans hsecond
        cases hq' : readQuad (next.past ['\\', 'u'] rest) with
        | absent => trivial
        | broken f => exact hlow.trans ((readQuad_advances _).of_broken hq')
        | found low last =>
          simp only
          split
          · split
            · exact hlow.trans ((readQuad_advances _).of_found hq')
            · exact .unexpected (.refl c) _
          · exact .unexpected (.refl c) _
      · trivial
    · split
      · exact hnext
      · exact .unexpected (.refl c) _

theorem readEscape_advances (c : Cursor) : Advances c (readEscape c) := by
  unfold readEscape
  split
  · exact .unexpected (.refl c) _
  · rename_i letter rest hc
    split
    · rename_i hu
      exact (Advances.trans (Cursor.ahead_past (hu ▸ hc)) (readUnit_advances _)).required _
    · split
      · exact Cursor.ahead_past hc
      · exact .unexpected (.refl c) _

theorem quotedBody_advances (quote : Char) (c : Cursor) : Advances c (quotedBody quote c) := by
  fun_induction quotedBody quote c with
  | case1 c hc => exact .unexpected (.refl c) _
  | case2 c rest hc => exact Cursor.ahead_past hc
  | case3 c rest char between hc _ he ih =>
    have hbetween := (readEscape_advances _).of_found he
    exact .trans ((Cursor.ahead_past hc).trans hbetween) (ih.map _)
  | case4 => trivial
  | case5 c rest f hc _ he =>
    exact (Cursor.ahead_past hc).trans ((readEscape_advances _).of_broken he)
  | case6 c d rest hc _ _ ih => exact .trans (Cursor.ahead_past hc) (ih.map _)

theorem readString_advances (c : Cursor) : Advances c (readString c) := by
  unfold readString
  split
  · rename_i hc
    exact .trans (Cursor.ahead_past hc) ((quotedBody_advances _ _).map _)
  · rename_i hc
    exact .trans (Cursor.ahead_past hc) ((quotedBody_advances _ _).map _)
  · trivial

theorem readKeyword_advances (c : Cursor) : Advances c (readKeyword c) := by
  rcases readKeyword_cases c with h | ⟨word, s, rest, -, hc, h⟩
  · rw [h]
    trivial
  · rw [h]
    exact Cursor.ahead_past hc

theorem readScalar_advances (c : Cursor) : Advances c (readScalar c) := by
  unfold readScalar
  cases hs : readString c with
  | found s next => exact (readString_advances c).of_found hs
  | broken f => exact (readString_advances c).of_broken hs
  | absent =>
    simp only [Outcome.map, Outcome.andThen]
    split
    · exact .unexpected (.refl c) _
    · exact readKeyword_advances c
    · rename_i l rest hscan
      obtain ⟨htext, -⟩ := Literal.scan_sound hscan
      split
      · exact Cursor.ahead_past htext
      · trivial

/-! ## Lists and values -/

theorem readChar_advances (wanted : Char) (c : Cursor) : Advances c (readChar wanted c) := by
  unfold readChar
  split
  · trivial
  · rename_i hc
    split
    · exact Cursor.ahead_after hc
    · trivial

theorem readEnd_advances (nonempty : Bool) (close : Char) (wanted : Expected) (c : Cursor) :
    Advances c (readEnd nonempty close wanted c) := by
  unfold readEnd
  refine (skipGap_advances c).andThen fun _ c₁ => ?_
  have hend : ∀ c₂ : Cursor, c₁.Ahead c₂ → Advances c₁ ((skipGap c₂).andThen fun _ c =>
      (readChar close c).required wanted c) := fun c₂ h =>
    .trans h ((skipGap_advances c₂).andThen fun _ c => (readChar_advances close c).required wanted)
  cases nonempty with
  | false => exact hend c₁ (.refl c₁)
  | true =>
    simp only [if_true]
    split
    · rename_i next hcomma
      exact hend next ((readChar_advances ',' c₁).of_found hcomma)
    · exact hend c₁ (.refl c₁)

structure AllAdvance (depth : Nat) : Prop where
  node : ∀ c, Advances c (readNode depth c)
  items : ∀ c, Advances c (readItems depth c)
  moreItems : ∀ c, Advances c (readMoreItems depth c)
  member : ∀ c, Advances c (readMember depth c)
  members : ∀ c, Advances c (readMembers depth c)
  moreMembers : ∀ c, Advances c (readMoreMembers depth c)

theorem allAdvance_zero : AllAdvance 0 where
  node _ := by rw [readNode]; trivial
  items c := by rw [readItems]; exact .refl c
  moreItems c := by rw [readMoreItems]; exact .refl c
  member _ := by rw [readMember]; trivial
  members c := by rw [readMembers]; exact .refl c
  moreMembers c := by rw [readMoreMembers]; exact .refl c

namespace AllAdvance

variable {depth : Nat} (ih : AllAdvance depth) (c : Cursor)
include ih

theorem node_succ : Advances c (readNode (depth + 1) c) := by
  rw [readNode]
  split
  · rename_i rest hc
    refine .trans (Cursor.ahead_after hc) ((ih.members _).andThen fun members last => ?_)
    exact (readEnd_advances _ _ _ last).andThen fun _ next => .refl next
  · rename_i rest hc
    refine .trans (Cursor.ahead_after hc) ((ih.items _).andThen fun items last => ?_)
    exact (readEnd_advances _ _ _ last).andThen fun _ next => .refl next
  · exact (readScalar_advances c).map _

theorem nodeBehindGap : Advances c ((skipGap c).andThen fun _ c => readNode depth c) :=
  (skipGap_advances c).andThen fun _ c => ih.node c

theorem items_succ : Advances c (readItems (depth + 1) c) := by
  rw [readItems]
  have hitem := ih.nodeBehindGap c
  split
  · exact .refl c
  · rename_i hbroken
    exact hitem.of_broken hbroken
  · rename_i item next hfound
    exact .trans (hitem.of_found hfound) ((ih.moreItems next).map _)

theorem member_succ : Advances c (readMember (depth + 1) c) := by
  rw [readMember]
  refine (skipGap_advances c).andThen fun _ start => (readString_advances start).andThen fun key c => ?_
  refine (skipGap_advances c).andThen fun _ c => ((readChar_advances ':' c).required .colon).andThen fun _ c => ?_
  exact (skipGap_advances c).andThen fun _ c => ((ih.node c).required .value).map _

theorem members_succ : Advances c (readMembers (depth + 1) c) := by
  rw [readMembers]
  have hmember := ih.member c
  split
  · exact .refl c
  · rename_i hbroken
    exact hmember.of_broken hbroken
  · rename_i m next hfound
    exact .trans (hmember.of_found hfound) ((ih.moreMembers next).map _)

omit ih in
theorem comma : Advances c ((skipGap c).andThen fun _ c => readChar ',' c) :=
  (skipGap_advances c).andThen fun _ c => readChar_advances ',' c

theorem moreItems_succ : Advances c (readMoreItems (depth + 1) c) := by
  rw [readMoreItems]
  split
  · exact .refl c
  · rename_i hbroken
    exact (comma c).of_broken hbroken
  · rename_i behind hcomma
    have hbehind := (comma c).of_found hcomma
    have hitem := ih.nodeBehindGap behind
    split
    · exact .refl c
    · rename_i hbroken
      exact hbehind.trans (hitem.of_broken hbroken)
    · rename_i item next hfound
      exact .trans (hbehind.trans (hitem.of_found hfound)) ((ih.moreItems next).map _)

theorem moreMembers_succ : Advances c (readMoreMembers (depth + 1) c) := by
  rw [readMoreMembers]
  split
  · exact .refl c
  · rename_i hbroken
    exact (comma c).of_broken hbroken
  · rename_i behind hcomma
    have hbehind := (comma c).of_found hcomma
    have hmember := ih.member behind
    split
    · exact .refl c
    · rename_i hbroken
      exact hbehind.trans (hmember.of_broken hbroken)
    · rename_i m next hfound
      exact .trans (hbehind.trans (hmember.of_found hfound)) ((ih.moreMembers next).map _)

end AllAdvance

theorem allAdvance (depth : Nat) : AllAdvance depth := by
  induction depth with
  | zero => exact allAdvance_zero
  | succ depth ih =>
    exact ⟨ih.node_succ, ih.items_succ, ih.moreItems_succ, ih.member_succ, ih.members_succ, ih.moreMembers_succ⟩

/-! ## Whole texts -/

/-- A gap may be empty. -/
theorem skipFrom_ne_absent (state : GapState) (text : List Char) (p : Position) :
    skipFrom state text p ≠ .absent := by
  fun_induction skipFrom state text p with
  | case4 | case5 | case7 | case10 => simp
  | case1 _ _ ih | case2 _ _ ih | case3 _ _ _ _ _ _ ih | case6 _ _ _ ih | case8 _ _ _ ih | case9 _ _ _ _ _ ih =>
    exact ih

theorem skipGap_ne_absent (c : Cursor) : skipGap c ≠ .absent := skipFrom_ne_absent .blank c.rest c.place

theorem Outcome.required_ne_absent {α : Type} (o : Outcome α) (wanted : Expected) (c : Cursor) :
    o.required wanted c ≠ .absent := by
  cases o <;> nofun

theorem Outcome.andThen_ne_absent {α β : Type} {o : Outcome α} {g : α → Cursor → Outcome β} (ho : o ≠ .absent)
    (hg : ∀ a c, g a c ≠ .absent) : o.andThen g ≠ .absent := by
  cases o with
  | found a c => exact hg a c
  | absent => exact absurd rfl ho
  | broken f => nofun

def reading (text : List Char) : Outcome Tree :=
  (skipGap (.start text)).andThen fun _ start =>
    ((readNode (readDepth text) start).required .value start).andThen fun tree c =>
      (skipGap c).andThen fun _ last => .found tree last

theorem reading_advances (text : List Char) : Advances (.start text) (reading text) :=
  (skipGap_advances _).andThen fun _ start =>
    (((allAdvance _).node start).required .value).andThen fun _ c =>
      (skipGap_advances c).andThen fun _ last => .refl last

theorem reading_ne_absent (text : List Char) : reading text ≠ .absent := by
  refine Outcome.andThen_ne_absent (skipGap_ne_absent _) fun _ start => ?_
  refine Outcome.andThen_ne_absent (Outcome.required_ne_absent _ _ _) fun tree c => ?_
  exact Outcome.andThen_ne_absent (skipGap_ne_absent c) fun _ last => nofun

/-- A text is read if the reading finds a value and the text is over then. -/
theorem readRaw_eq_ok {text : List Char} {t : Tree} (h : readRaw text = .ok t) :
    ∃ place, reading text = .found t ⟨[], place⟩ := by
  unfold readRaw at h
  dsimp only at h
  split at h
  · rename_i tree place hread
    cases h
    exact ⟨place, hread⟩
  · cases h
  · cases h
  · cases h

/-- A text is not read if the reading is broken, or finds a value and the text is not over then. -/
theorem readRaw_eq_error {text : List Char} {f : Failure} (h : readRaw text = .error f) :
    reading text = .broken f ∨
      ∃ t last, reading text = .found t last ∧ last.rest ≠ [] ∧ f = .trailing last := by
  unfold readRaw at h
  dsimp only at h
  split at h
  · cases h
  · rename_i tree last hmore hread
    cases h
    refine .inr ⟨tree, last, hread, fun hnil => ?_, rfl⟩
    obtain ⟨rest, place⟩ := last
    obtain rfl : rest = [] := hnil
    exact hmore place rfl
  · rename_i f' hbroken
    cases h
    exact .inl hbroken
  · rename_i habsent
    exact absurd habsent (reading_ne_absent text)

end Reshape
