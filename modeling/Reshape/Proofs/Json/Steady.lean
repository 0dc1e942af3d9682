/-
  Reshape.Proofs.Json.Steady — how deep the readers may go makes no difference.

  The depth that the readers are given is there for them to be defined at all. Between two
  levels of nesting a reader goes through at most three others and at least one character,
  so a reader at a text of `n` characters never gets deeper than about three times `n`: what it says does
  not depend on the depth from there on, be it that something is found, absent or broken
  (`steady`). So there is one reader of values (`readValue`), and every value in a document
  is what that reader finds at the value's place.
-/

import Reshape.Proofs.Json.Progress

namespace Reshape

def readValue (c : Cursor) : Outcome Tree := readNode (readDepth c.rest) c

theorem Outcome.andThen_congr {α β : Type} {o : Outcome α} {g g' : α → Cursor → Outcome β}
    (h : ∀ a next, o = .found a next → g a next = g' a next) : o.andThen g = o.andThen g' := by
  cases o with
  | found a next => exact h a next rfl
  | absent => rfl
  | broken f => rfl

/-- From a depth on that is enough for the text, a level more makes no difference. -/
structure Steady (depth : Nat) : Prop where
  node : ∀ c, 3 * c.rest.length ≤ depth → readNode (depth + 1) c = readNode depth c
  items : ∀ c, 3 * c.rest.length + 1 ≤ depth → readItems (depth + 1) c = readItems depth c
  moreItems : ∀ c, 3 * c.rest.length ≤ depth → readMoreItems (depth + 1) c = readMoreItems depth c
  member : ∀ c, 3 * c.rest.length + 1 ≤ depth → readMember (depth + 1) c = readMember depth c
  members : ∀ c, 3 * c.rest.length + 2 ≤ depth → readMembers (depth + 1) c = readMembers depth c
  moreMembers : ∀ c, 3 * c.rest.length ≤ depth → readMoreMembers (depth + 1) c = readMoreMembers depth c

/-- A comma that is found is behind the cursor, so there is less to read. -/
theorem comma_shorter {c next : Cursor} (h : (skipGap c).andThen (fun _ c => readChar ',' c) = .found () next) :
    next.rest.length < c.rest.length := by
  obtain ⟨_, mid, hgap, hchar⟩ := Outcome.andThen_eq_found h
  have hle := ((skipGap_advances c).of_found hgap).length_le
  have heq := congrArg List.length (readChar_eq_found hchar)
  rw [List.length_cons] at heq
  omega

/-- At the end of the text nothing is read, whatever the depth. -/
theorem steady_zero : Steady 0 where
  node c hd := by
    obtain ⟨rest, place⟩ := c
    obtain rfl : rest = [] := List.length_eq_zero_iff.mp (by simp only at hd; omega)
    rw [readNode, readNode]
    rfl
  items c hd := by omega
  moreItems c hd := by
    obtain ⟨rest, place⟩ := c
    obtain rfl : rest = [] := List.length_eq_zero_iff.mp (by simp only at hd; omega)
    rw [readMoreItems, readMoreItems]
    rfl
  member c hd := by omega
  members c hd := by omega
  moreMembers c hd := by
    obtain ⟨rest, place⟩ := c
    obtain rfl : rest = [] := List.length_eq_zero_iff.mp (by simp only at hd; omega)
    rw [readMoreMembers, readMoreMembers]
    rfl

namespace Steady

variable {depth : Nat} (ih : Steady depth) (c : Cursor)
include ih

theorem node_succ (hd : 3 * c.rest.length ≤ depth + 1) : readNode (depth + 2) c = readNode (depth + 1) c := by
  rw [readNode, readNode]
  split
  · rename_i rest hc
    rw [hc, List.length_cons] at hd
    rw [ih.members ⟨rest, _⟩ (by simp only; omega)]
  · rename_i rest hc
    rw [hc, List.length_cons] at hd
    rw [ih.items ⟨rest, _⟩ (by simp only; omega)]
  · rfl

theorem nodeBehindGap (hd : 3 * c.rest.length ≤ depth) :
    (skipGap c).andThen (fun _ c => readNode (depth + 1) c) = (skipGap c).andThen fun _ c => readNode depth c := by
  refine Outcome.andThen_congr fun _ next hgap => ih.node next ?_
  have := ((skipGap_advances c).of_found hgap).length_le
  omega

theorem items_succ (hd : 3 * c.rest.length + 1 ≤ depth + 1) : readItems (depth + 2) c = readItems (depth + 1) c := by
  rw [readItems, readItems, ih.nodeBehindGap c (by omega)]
  split
  · rfl
  · rfl
  · rename_i item next hitem
    have := (((allAdvance depth).nodeBehindGap c).of_found hitem).length_le
    rw [ih.moreItems next (by omega)]

theorem moreItems_succ (hd : 3 * c.rest.length ≤ depth + 1) :
    readMoreItems (depth + 2) c = readMoreItems (depth + 1) c := by
  rw [readMoreItems, readMoreItems]
  split
  · rfl
  · rfl
  · rename_i behind hcomma
    have hlt := comma_shorter hcomma
    rw [ih.nodeBehindGap behind (by omega)]
    split
    · rfl
    · rfl
    · rename_i item next hitem
      have := (((allAdvance depth).nodeBehindGap behind).of_found hitem).length_le
      rw [ih.moreItems next (by omega)]

theorem member_succ (hd : 3 * c.rest.length + 1 ≤ depth + 1) :
    readMember (depth + 2) c = readMember (depth + 1) c := by
  rw [readMember, readMember]
  refine Outcome.andThen_congr fun _ start hstart => Outcome.andThen_congr fun key c₁ hkey => ?_
  refine Outcome.andThen_congr fun _ c₂ hgap => Outcome.andThen_congr fun _ c₃ hcolon => ?_
  refine Outcome.andThen_congr fun _ c₄ hgap' => ?_
  have h := ((skipGap_advances c).of_found hstart).length_le
  have h₁ := ((readString_advances start).of_found hkey).length_le
  have h₂ := ((skipGap_advances c₁).of_found hgap).length_le
  have h₃ := (((readChar_advances ':' c₂).required .colon).of_found hcolon).length_le
  have h₄ := ((skipGap_advances c₃).of_found hgap').length_le
  rw [ih.node c₄ (by omega)]

theorem members_succ (hd : 3 * c.rest.length + 2 ≤ depth + 1) :
    readMembers (depth + 2) c = readMembers (depth + 1) c := by
  rw [readMembers, readMembers, ih.member c (by omega)]
  split
  · rfl
  · rfl
  · rename_i m next hmember
    have := (((allAdvance depth).member c).of_found hmember).length_le
    rw [ih.moreMembers next (by omega)]

theorem moreMembers_succ (hd : 3 * c.rest.length ≤ depth + 1) :
    readMoreMembers (depth + 2) c = readMoreMembers (depth + 1) c := by
  rw [readMoreMembers, readMoreMembers]
  split
  · rfl
  · rfl
  · rename_i behind hcomma
    have hlt := comma_shorter hcomma
    rw [ih.member behind (by omega)]
    split
    · rfl
    · rfl
    · rename_i m next hmember
      have := (((allAdvance depth).member behind).of_found hmember).length_le
      rw [ih.moreMembers next (by omega)]

end Steady

theorem steady (depth : Nat) : Steady depth := by
  induction depth with
  | zero => exact steady_zero
  | succ depth ih =>
    exact ⟨ih.node_succ, ih.items_succ, ih.moreItems_succ, ih.member_succ, ih.members_succ, ih.moreMembers_succ⟩

/-- Whatever depth is enough for the text, the reader says the same. -/
theorem readNode_eq_readValue {depth : Nat} {c : Cursor} (hd : 3 * c.rest.length ≤ depth) :
    readNode depth c = readValue c := by
  have least : ∀ depth, 3 * c.rest.length ≤ depth → readNode depth c = readNode (3 * c.rest.length) c := by
    intro depth hd
    induction depth, hd using Nat.le_induction with
    | base => rfl
    | succ depth hd ih => rw [(steady depth).node c hd, ih]
  rw [least depth hd, readValue, least (readDepth c.rest) (by unfold readDepth; omega)]

end Reshape
