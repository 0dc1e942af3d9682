/-
  Reshape.Proofs.Json.Placing — where the nodes and keys of a tree stand.

  Positions are carried along when trees are taken apart, so what is said of where a part
  stands is said of the whole (`Tree.HasPosition`), and what is true of every position in the
  whole is true of every position in a part (`Tree.Everywhere`). Leaving members out, and
  merging those of one key, makes up no position that was not there.

  - `parse_placed`: in a tree that has been read from a text, every node and every key stands
    somewhere.
-/

import Reshape.Json.Read
import Reshape.Proofs.Json.Keyed

namespace Reshape

/-- A member that is put has a position and a value that were there, or that come with it. -/
theorem Member.mem_put_cases {α : Type} {key : String} {position : Option Position} {v : α}
    {ms : List (Member α)} {n : Member α} (h : n ∈ Member.put key position v ms) :
    (n.position = position ∨ ∃ m ∈ ms, n.position = m.position) ∧ (n.value = v ∨ n ∈ ms) := by
  refine ⟨?_, Member.mem_put h⟩
  induction ms with
  | nil =>
    obtain rfl : n = ⟨key, position, v⟩ := List.mem_singleton.mp h
    exact Or.inl rfl
  | cons m rest ih =>
    rw [put] at h
    split at h
    · rcases List.mem_cons.mp h with rfl | h
      · exact Or.inr ⟨m, List.mem_cons_self, rfl⟩
      · exact Or.inr ⟨n, List.mem_cons_of_mem _ h, rfl⟩
    · rcases List.mem_cons.mp h with rfl | h
      · exact Or.inr ⟨n, List.mem_cons_self, rfl⟩
      · rcases ih h with e | ⟨o, ho, e⟩
        · exact Or.inl e
        · exact Or.inr ⟨o, List.mem_cons_of_mem _ ho, e⟩

/-! ## Positions in a tree -/

namespace Tree

/-- `u` is the tree, a part of it, or a part of a part. -/
inductive Contains : Tree → Tree → Prop
  | self (t : Tree) : Contains t t
  | part {t inner u : Tree} : inner ∈ t.content.parts → Contains inner u → Contains t u

def HasPosition (t : Tree) (p : Option Position) : Prop :=
  ∃ u, t.Contains u ∧ (u.position = p ∨ ∃ m ∈ u.members, m.position = p)

/-- `P` is true of wherever a node of the tree, or the key of a member, stands. -/
def Everywhere (P : Option Position → Prop) (t : Tree) : Prop := ∀ p, t.HasPosition p → P p

variable {P : Option Position → Prop} {t : Tree}

theorem everywhere_iff : t.Everywhere P ↔
    P t.position ∧ (∀ m ∈ t.members, P m.position) ∧ ∀ inner ∈ t.content.parts, inner.Everywhere P := by
  constructor
  · intro h
    refine ⟨h _ ⟨t, .self t, Or.inl rfl⟩, fun m hm => h _ ⟨t, .self t, Or.inr ⟨m, hm, rfl⟩⟩, ?_⟩
    rintro inner hp p ⟨u, hu, hpos⟩
    exact h p ⟨u, .part hp hu, hpos⟩
  · rintro ⟨hself, hkeys, hparts⟩ p ⟨u, hu, hpos⟩
    cases hu with
    | self =>
      rcases hpos with rfl | ⟨m, hm, rfl⟩
      · exact hself
      · exact hkeys m hm
    | part hp hu => exact hparts _ hp p ⟨u, hu, hpos⟩

namespace Everywhere

variable (h : t.Everywhere P)
include h

theorem position : P t.position := (everywhere_iff.mp h).1

theorem key {m : Member Tree} (hm : m ∈ t.members) : P m.position := (everywhere_iff.mp h).2.1 m hm

theorem part {inner : Tree} (hp : inner ∈ t.content.parts) : inner.Everywhere P :=
  (everywhere_iff.mp h).2.2 inner hp

theorem member {m : Member Tree} (hm : m ∈ t.members) : m.value.Everywhere P :=
  h.part (mem_parts_of_mem_members hm)

/-- Fewer members have no more positions. -/
theorem without (keys : List String) : (t.without keys).Everywhere P := by
  have hs := without_sublist t keys
  have hposition : (t.without keys).position = t.position := by
    obtain ⟨position, content⟩ := t
    cases content <;> rfl
  refine everywhere_iff.mpr ⟨hposition ▸ h.position, fun m hm => h.key (hs.subset hm), fun inner hp => ?_⟩
  obtain ⟨position, content⟩ := t
  cases content with
  | object members =>
    obtain ⟨m, hm, rfl⟩ := List.mem_map.mp hp
    exact h.member (hs.subset hm)
  | _ => exact h.part hp

end Everywhere

/-! ## Members of one key -/

def MembersEverywhere (P : Option Position → Prop) (ms : List (Member Tree)) : Prop :=
  ∀ m ∈ ms, P m.position ∧ m.value.Everywhere P

theorem everywhere_object {position : Option Position} {ms : List (Member Tree)} (hp : P position)
    (hm : MembersEverywhere P ms) : Everywhere P ⟨position, .object ms⟩ := by
  refine everywhere_iff.mpr ⟨hp, fun m hmem => (hm m hmem).1, fun inner hi => ?_⟩
  obtain ⟨m, hmem, rfl⟩ := List.mem_map.mp hi
  exact (hm m hmem).2

theorem everywhere_array {position : Option Position} {items : List Tree} (hp : P position)
    (hi : ∀ t ∈ items, t.Everywhere P) : Everywhere P ⟨position, .array items⟩ :=
  everywhere_iff.mpr ⟨hp, nofun, hi⟩

theorem distinctItems_eq (items : List Tree) : distinctItems items = items.map distinct := by
  induction items with
  | nil => rfl
  | cons t rest ih => rw [distinctItems, ih, List.map_cons]

theorem distinctMembers_everywhere {seen ms : List (Member Tree)} (hs : MembersEverywhere P seen)
    (hm : ∀ m ∈ ms, P m.position ∧ m.value.distinct.Everywhere P) :
    MembersEverywhere P (distinctMembers seen ms) := by
  induction ms generalizing seen with
  | nil => exact hs
  | cons m rest ih =>
    obtain ⟨key, position, t⟩ := m
    obtain ⟨hp, ht⟩ := hm _ List.mem_cons_self
    refine ih (fun n hn => ?_) fun m hmem => hm m (List.mem_cons_of_mem _ hmem)
    obtain ⟨hposition, hvalue⟩ := Member.mem_put_cases hn
    constructor
    · rcases hposition with e | ⟨o, ho, e⟩
      · exact e ▸ hp
      · exact e ▸ (hs o ho).1
    · rcases hvalue with e | hn
      · exact e ▸ ht
      · exact (hs n hn).2

/-- Merging the members of one key makes up no position. -/
theorem Everywhere.distinct (h : t.Everywhere P) : t.distinct.Everywhere P := by
  induction t using Tree.parts_induction with
  | step t ih =>
    obtain ⟨position, content⟩ := t
    cases content with
    | scalar s => exact h
    | array items =>
      rw [Tree.distinct, distinctItems_eq]
      refine everywhere_array h.position fun t ht => ?_
      obtain ⟨item, hi, rfl⟩ := List.mem_map.mp ht
      exact ih item hi (h.part hi)
    | object ms =>
      rw [Tree.distinct]
      exact everywhere_object h.position (distinctMembers_everywhere nofun fun m hm =>
        ⟨h.key hm, ih m.value (List.mem_map_of_mem hm) (h.member hm)⟩)

abbrev Placed (t : Tree) : Prop := t.Everywhere fun p => p.isSome = true

end Tree

/-! ## What is read is placed -/

def Outcome.Yields {α : Type} (P : α → Prop) (o : Outcome α) : Prop := ∀ a next, o = .found a next → P a

namespace Outcome.Yields

variable {α β : Type} {P : α → Prop} {Q : β → Prop} {o : Outcome α}

theorem found {a : α} (h : P a) (next : Cursor) : Yields P (.found a next) := by
  rintro b after e
  cases e
  exact h

theorem absent : Yields P (.absent : Outcome α) := nofun

theorem broken (f : Failure) : Yields P (.broken f : Outcome α) := nofun

theorem andThen {f : α → Cursor → Outcome β} (ho : Yields P o) (hf : ∀ a c, P a → Yields Q (f a c)) :
    Yields Q (o.andThen f) := by
  intro b next h
  obtain ⟨a, between, ha, hb⟩ := andThen_eq_found h
  exact hf a between (ho a between ha) b next hb

theorem any (o : Outcome α) : Yields (fun _ => True) o := fun _ _ _ => trivial

theorem map {f : α → β} (ho : Yields P o) (hf : ∀ a, P a → Q (f a)) : Yields Q (o.map f) :=
  ho.andThen fun a c ha => found (hf a ha) c

theorem required (ho : Yields P o) (wanted : Expected) (c : Cursor) : Yields P (o.required wanted c) :=
  fun a next h => ho a next (required_eq_found h)

end Outcome.Yields

open Outcome (Yields)
open Reshape.Tree (Placed MembersEverywhere)

def MemberPlaced (m : Member Tree) : Prop := m.position.isSome = true ∧ m.value.Placed

structure ReadsPlaced (depth : Nat) : Prop where
  node : ∀ c, Yields Placed (readNode depth c)
  items : ∀ c, Yields (∀ t ∈ ·, t.Placed) (readItems depth c)
  moreItems : ∀ c, Yields (∀ t ∈ ·, t.Placed) (readMoreItems depth c)
  member : ∀ c, Yields MemberPlaced (readMember depth c)
  members : ∀ c, Yields (∀ m ∈ ·, MemberPlaced m) (readMembers depth c)
  moreMembers : ∀ c, Yields (∀ m ∈ ·, MemberPlaced m) (readMoreMembers depth c)

theorem readsPlaced_zero : ReadsPlaced 0 where
  node _ := by rw [readNode]; exact .absent
  items c := by rw [readItems]; exact .found nofun c
  moreItems c := by rw [readMoreItems]; exact .found nofun c
  member _ := by rw [readMember]; exact .absent
  members c := by rw [readMembers]; exact .found nofun c
  moreMembers c := by rw [readMoreMembers]; exact .found nofun c

namespace ReadsPlaced

variable {depth : Nat} (ih : ReadsPlaced depth) (c : Cursor)
include ih

theorem node_succ : Yields Placed (readNode (depth + 1) c) := by
  rw [readNode]
  split
  · refine (ih.members _).andThen fun ms last hms => (Yields.any _).andThen fun _ next _ => .found ?_ next
    exact Tree.everywhere_object rfl hms
  · refine (ih.items _).andThen fun items last hitems => (Yields.any _).andThen fun _ next _ => .found ?_ next
    exact Tree.everywhere_array rfl hitems
  · exact (Yields.any _).map fun s _ => Tree.everywhere_iff.mpr ⟨rfl, nofun, nofun⟩

theorem nodeBehindGap : Yields Placed ((skipGap c).andThen fun _ c => readNode depth c) :=
  (Yields.any _).andThen fun _ c _ => ih.node c

theorem items_succ : Yields (∀ t ∈ ·, t.Placed) (readItems (depth + 1) c) := by
  rw [readItems]
  split
  · exact .found nofun c
  · exact .broken _
  · rename_i item next hfound
    exact (ih.moreItems next).map fun rest hrest =>
      List.forall_mem_cons.mpr ⟨ih.nodeBehindGap c item next hfound, hrest⟩

theorem moreItems_succ : Yields (∀ t ∈ ·, t.Placed) (readMoreItems (depth + 1) c) := by
  rw [readMoreItems]
  split
  · exact .found nofun c
  · exact .broken _
  · rename_i behind _
    split
    · exact .found nofun c
    · exact .broken _
    · rename_i item next hfound
      exact (ih.moreItems next).map fun rest hrest =>
        List.forall_mem_cons.mpr ⟨ih.nodeBehindGap behind item next hfound, hrest⟩

theorem member_succ : Yields MemberPlaced (readMember (depth + 1) c) := by
  rw [readMember]
  refine (Yields.any _).andThen fun _ start _ => (Yields.any _).andThen fun key c _ => ?_
  refine (Yields.any _).andThen fun _ c _ => (Yields.any _).andThen fun _ c _ => ?_
  refine (Yields.any _).andThen fun _ c _ => ((ih.node c).required .value c).map fun t ht => ?_
  exact ⟨rfl, ht⟩

theorem members_succ : Yields (∀ m ∈ ·, MemberPlaced m) (readMembers (depth + 1) c) := by
  rw [readMembers]
  split
  · exact .found nofun c
  · exact .broken _
  · rename_i m next hfound
    exact (ih.moreMembers next).map fun rest hrest =>
      List.forall_mem_cons.mpr ⟨ih.member c m next hfound, hrest⟩

theorem moreMembers_succ : Yields (∀ m ∈ ·, MemberPlaced m) (readMoreMembers (depth + 1) c) := by
  rw [readMoreMembers]
  split
  · exact .found nofun c
  · exact .broken _
  · rename_i behind _
    split
    · exact .found nofun c
    · exact .broken _
    · rename_i m next hfound
      exact (ih.moreMembers next).map fun rest hrest =>
        List.forall_mem_cons.mpr ⟨ih.member behind m next hfound, hrest⟩

end ReadsPlaced

theorem readsPlaced (depth : Nat) : ReadsPlaced depth := by
  induction depth with
  | zero => exact readsPlaced_zero
  | succ depth ih =>
    exact ⟨ih.node_succ, ih.items_succ, ih.moreItems_succ, ih.member_succ, ih.members_succ, ih.moreMembers_succ⟩

theorem readRaw_placed {text : List Char} {t : Tree} (h : readRaw text = .ok t) : t.Placed := by
  have hyields : Yields Placed ((skipGap (.start text)).andThen fun _ start =>
      ((readNode (readDepth text) start).required .value start).andThen fun tree c =>
        (skipGap c).andThen fun _ last => .found tree last) := by
    refine (Yields.any _).andThen fun _ start _ => ?_
    refine (((readsPlaced (readDepth text)).node start).required .value start).andThen fun tree c ht => ?_
    exact (Yields.any _).andThen fun _ last _ => .found ht last
  unfold readRaw at h
  simp only at h
  split at h
  · rename_i hfound
    cases h
    exact hyields _ _ hfound
  · cases h
  · cases h
  · cases h

/-- In a tree that has been read from a text, every node and every key stands somewhere. -/
theorem Tree.parse_placed {text : String} {t : Tree} (h : Tree.parse text = .ok t) : t.Placed := by
  unfold Tree.parse at h
  cases hr : readRaw (withoutMark text.toList) with
  | error f => rw [hr] at h; cases h
  | ok raw =>
    rw [hr] at h
    cases h
    exact (readRaw_placed hr).distinct

end Reshape
