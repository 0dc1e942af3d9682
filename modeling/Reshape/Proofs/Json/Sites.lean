/-
  Reshape.Proofs.Json.Sites — every node and every key of a tree stands where it was read.

  The readers write down where they are before they read, so the position of a node is that
  of a place in the text at which the reader of values finds that very node, and the position
  of a key is that of a place at which the reader of strings finds that key (`Tree.Sited`).
  The readers only go forward, so in the order of the text, each node before its parts and each
  key before its value, the positions rise (`Rising`). Both are shown for all readers
  together, by induction on their depth (`sites`).

  - `readRaw_sited`, `readRaw_rising`: what is so of the tree that a whole text is read as.
-/

import Reshape.Proofs.Json.Parsing
import Reshape.Proofs.Json.Placing
import Reshape.Proofs.Json.Steady

namespace Reshape

open Cursor (Ahead)
open Position (Before Upto)

namespace Tree

mutual

/-- Where the nodes and the keys stand, in the order of the text. -/
def positions : Tree → List (Option Position)
  | ⟨position, .scalar _⟩ => [position]
  | ⟨position, .array items⟩ => position :: itemPositions items
  | ⟨position, .object members⟩ => position :: memberPositions members
termination_by structural t => t

def itemPositions : List Tree → List (Option Position)
  | [] => []
  | t :: rest => t.positions ++ itemPositions rest
termination_by structural items => items

def memberPositions : List (Member Tree) → List (Option Position)
  | [] => []
  | ⟨_, position, t⟩ :: rest => position :: (t.positions ++ memberPositions rest)
termination_by structural members => members

end

end Tree

/-! ## Rising positions -/

/-- The positions are there, rise, and are all between the two. -/
def Rising (lo : Position) (positions : List (Option Position)) (hi : Position) : Prop :=
  ∃ ps : List Position, positions = ps.map some ∧ ps.Pairwise Before ∧ ∀ p ∈ ps, lo.Upto p ∧ p.Before hi

namespace Rising

variable {lo mid hi p : Position} {positions more : List (Option Position)}

theorem nil (lo hi : Position) : Rising lo [] hi := ⟨[], rfl, .nil, nofun⟩

theorem append (h : Rising lo positions mid) (h' : Rising mid more hi) (hlo : lo.Upto mid) (hhi : mid.Upto hi) :
    Rising lo (positions ++ more) hi := by
  obtain ⟨ps, rfl, hps, hin⟩ := h
  obtain ⟨qs, rfl, hqs, hin'⟩ := h'
  refine ⟨ps ++ qs, by rw [List.map_append], ?_, fun r hr => ?_⟩
  · refine List.pairwise_append.mpr ⟨hps, hqs, fun p hp q hq => ?_⟩
    exact (hin p hp).2.upto_trans (hin' q hq).1
  · rcases List.mem_append.mp hr with hr | hr
    · exact ⟨(hin r hr).1, (hin r hr).2.upto_trans hhi⟩
    · exact ⟨hlo.trans (hin' r hr).1, (hin' r hr).2⟩

theorem single (h : p.Before hi) : Rising p [some p] hi :=
  ⟨[p], rfl, List.pairwise_singleton _ _, fun q hq => by
    obtain rfl := List.mem_singleton.mp hq
    exact ⟨.refl q, h⟩⟩

theorem cons (hp : p.Before mid) (h : Rising mid more hi) (hhi : mid.Upto hi) : Rising p (some p :: more) hi :=
  (single hp).append h hp.upto hhi

theorem widen (h : Rising mid positions hi) (hlo : lo.Upto mid) : Rising lo positions hi := by
  obtain ⟨ps, rfl, hps, hin⟩ := h
  exact ⟨ps, rfl, hps, fun p hp => ⟨hlo.trans (hin p hp).1, (hin p hp).2⟩⟩

theorem below (h : Rising lo positions mid) (hhi : mid.Upto hi) : Rising lo positions hi := by
  obtain ⟨ps, rfl, hps, hin⟩ := h
  exact ⟨ps, rfl, hps, fun p hp => ⟨(hin p hp).1, (hin p hp).2.upto_trans hhi⟩⟩

end Rising

/-! ## Sites -/

/-- The node stands at a place from the cursor on at which the reader of values finds it. -/
def Tree.ReadAhead (c : Cursor) (t : Tree) : Prop :=
  ∃ site next, c.Ahead site ∧ t.position = some site.place ∧ readValue site = .found t next

def Member.ReadAhead (c : Cursor) (m : Member Tree) : Prop :=
  ∃ site next, c.Ahead site ∧ m.position = some site.place ∧ readString site = .found m.key next

def Tree.Sited (c : Cursor) (t : Tree) : Prop :=
  ∀ u, t.Contains u → u.ReadAhead c ∧ ∀ m ∈ u.members, m.ReadAhead c

variable {c mid next : Cursor} {t : Tree}

theorem Tree.sited_iff :
    t.Sited c ↔ t.ReadAhead c ∧ (∀ m ∈ t.members, m.ReadAhead c) ∧ ∀ inner ∈ t.content.parts, inner.Sited c := by
  constructor
  · intro h
    exact ⟨(h t (.self t)).1, (h t (.self t)).2, fun inner hp u hu => h u (.part hp hu)⟩
  · rintro ⟨hself, hkeys, hparts⟩ u hu
    cases hu with
    | self => exact ⟨hself, hkeys⟩
    | part hp hu => exact hparts _ hp u hu

theorem Member.ReadAhead.back {m : Member Tree} (h : m.ReadAhead mid) (hc : c.Ahead mid) : m.ReadAhead c := by
  obtain ⟨site, next, hs, hp, hr⟩ := h
  exact ⟨site, next, hc.trans hs, hp, hr⟩

/-- What is ahead from further on is ahead from before. -/
theorem Tree.Sited.back (h : t.Sited mid) (hc : c.Ahead mid) : t.Sited c := by
  intro u hu
  obtain ⟨⟨site, next, hs, hp, hr⟩, hkeys⟩ := h u hu
  exact ⟨⟨site, next, hc.trans hs, hp, hr⟩, fun m hm => (hkeys m hm).back hc⟩

def Member.Sited (c : Cursor) (m : Member Tree) : Prop := m.ReadAhead c ∧ m.value.Sited c

theorem Member.Sited.back {m : Member Tree} (h : m.Sited mid) (hc : c.Ahead mid) : m.Sited c :=
  ⟨h.1.back hc, h.2.back hc⟩

/-! ## What the readers find -/

/-- Whatever the readers find within a depth that is enough for the text has its sites between
    where they began and where they stopped. -/
structure Sites (depth : Nat) : Prop where
  node : ∀ {c next t}, 3 * c.rest.length ≤ depth → readNode depth c = .found t next →
    t.Sited c ∧ Rising c.place t.positions next.place
  items : ∀ {c next ts}, 3 * c.rest.length + 1 ≤ depth → readItems depth c = .found ts next →
    (∀ t ∈ ts, t.Sited c) ∧ Rising c.place (Tree.itemPositions ts) next.place
  moreItems : ∀ {c next ts}, 3 * c.rest.length ≤ depth → readMoreItems depth c = .found ts next →
    (∀ t ∈ ts, t.Sited c) ∧ Rising c.place (Tree.itemPositions ts) next.place
  member : ∀ {c next m}, 3 * c.rest.length + 1 ≤ depth → readMember depth c = .found m next →
    m.Sited c ∧ Rising c.place (Tree.memberPositions [m]) next.place
  members : ∀ {c next ms}, 3 * c.rest.length + 2 ≤ depth → readMembers depth c = .found ms next →
    (∀ m ∈ ms, m.Sited c) ∧ Rising c.place (Tree.memberPositions ms) next.place
  moreMembers : ∀ {c next ms}, 3 * c.rest.length ≤ depth → readMoreMembers depth c = .found ms next →
    (∀ m ∈ ms, m.Sited c) ∧ Rising c.place (Tree.memberPositions ms) next.place

theorem sites_zero : Sites 0 where
  node _ h := by rw [readNode] at h; cases h
  items _ h := by rw [readItems] at h; cases h; exact ⟨List.forall_mem_nil _, .nil _ _⟩
  moreItems _ h := by rw [readMoreItems] at h; cases h; exact ⟨List.forall_mem_nil _, .nil _ _⟩
  member _ h := by rw [readMember] at h; cases h
  members _ h := by rw [readMembers] at h; cases h; exact ⟨List.forall_mem_nil _, .nil _ _⟩
  moreMembers _ h := by rw [readMoreMembers] at h; cases h; exact ⟨List.forall_mem_nil _, .nil _ _⟩

namespace Sites

variable {depth : Nat} (ih : Sites depth)
include ih

theorem node_succ (hd : 3 * c.rest.length ≤ depth + 1) (h : readNode (depth + 1) c = .found t next) :
    t.Sited c ∧ Rising c.place t.positions next.place := by
  have hhere : readValue c = .found t next := by rw [← readNode_eq_readValue hd, h]
  have hbefore := (((allAdvance _).node c).of_found h).before ((sound _).node h).length_lt
  rw [readNode] at h
  split at h
  · rename_i rest hc
    have hin := Cursor.ahead_after hc
    rw [hc, List.length_cons] at hd
    obtain ⟨members, last, hmembers, h⟩ := Outcome.andThen_eq_found h
    obtain ⟨_, after, hend, h⟩ := Outcome.andThen_eq_found h
    obtain ⟨rfl, rfl⟩ := Outcome.found.inj h
    obtain ⟨hsited, hrising⟩ := ih.members (by simp only; omega) hmembers
    have hlast : (c.place.after '\x7b').Upto last.place := (((allAdvance depth).members _).of_found hmembers).upto
    have hafter := ((readEnd_advances _ _ _ last).of_found hend).upto
    constructor
    · refine Tree.sited_iff.mpr ⟨⟨c, _, .refl c, rfl, hhere⟩, fun m hm => (hsited m hm).1.back hin, ?_⟩
      intro inner hp
      obtain ⟨m, hm, rfl⟩ := List.mem_map.mp hp
      exact (hsited m hm).2.back hin
    · exact .cons (Position.before_after _ _) (hrising.below hafter) (hlast.trans hafter)
  · rename_i rest hc
    have hin := Cursor.ahead_after hc
    rw [hc, List.length_cons] at hd
    obtain ⟨items, last, hitems, h⟩ := Outcome.andThen_eq_found h
    obtain ⟨_, after, hend, h⟩ := Outcome.andThen_eq_found h
    obtain ⟨rfl, rfl⟩ := Outcome.found.inj h
    obtain ⟨hsited, hrising⟩ := ih.items (by simp only; omega) hitems
    have hlast : (c.place.after '[').Upto last.place := (((allAdvance depth).items _).of_found hitems).upto
    have hafter := ((readEnd_advances _ _ _ last).of_found hend).upto
    constructor
    · refine Tree.sited_iff.mpr ⟨⟨c, _, .refl c, rfl, hhere⟩, List.forall_mem_nil _, fun inner hp => ?_⟩
      exact (hsited inner hp).back hin
    · exact .cons (Position.before_after _ _) (hrising.below hafter) (hlast.trans hafter)
  · obtain ⟨s, after, hs, h⟩ := Outcome.andThen_eq_found h
    cases h
    refine ⟨Tree.sited_iff.mpr ⟨⟨c, _, .refl c, rfl, hhere⟩, ?_⟩, .single hbefore⟩
    exact ⟨List.forall_mem_nil _, List.forall_mem_nil _⟩

/-- A first item and those behind it, in turn. -/
theorem items_cons {item : Tree} {more : List Tree} {last : Cursor} (hc : c.Ahead mid)
    (hd : 3 * mid.rest.length ≤ depth)
    (hitem : (skipGap mid).andThen (fun _ c => readNode depth c) = .found item next)
    (hmore : readMoreItems depth next = .found more last) :
    (∀ t ∈ item :: more, t.Sited c) ∧ Rising c.place (Tree.itemPositions (item :: more)) last.place := by
  obtain ⟨_, start, hgap, hnode⟩ := Outcome.andThen_eq_found hitem
  have hstart := (skipGap_advances mid).of_found hgap
  have hnext := ((allAdvance depth).node start).of_found hnode
  have hlast := ((allAdvance depth).moreItems next).of_found hmore
  have hle := hstart.length_le
  have hle' := hnext.length_le
  obtain ⟨hsited, hrising⟩ := ih.node (by omega) hnode
  obtain ⟨hsited', hrising'⟩ := ih.moreItems (by omega) hmore
  constructor
  · intro t ht
    rcases List.mem_cons.mp ht with rfl | ht
    · exact hsited.back (hc.trans hstart)
    · exact (hsited' t ht).back ((hc.trans hstart).trans hnext)
  · exact (hrising.append hrising' hnext.upto hlast.upto).widen (hc.trans hstart).upto

theorem items_succ {ts : List Tree} (hd : 3 * c.rest.length + 1 ≤ depth + 1)
    (h : readItems (depth + 1) c = .found ts next) :
    (∀ t ∈ ts, t.Sited c) ∧ Rising c.place (Tree.itemPositions ts) next.place := by
  rw [readItems] at h
  split at h
  · cases h
    exact ⟨List.forall_mem_nil _, .nil _ _⟩
  · cases h
  · rename_i hitem
    obtain ⟨more, last, hmore, h⟩ := Outcome.andThen_eq_found h
    cases h
    exact ih.items_cons (.refl c) (by omega) hitem hmore

theorem moreItems_succ {ts : List Tree} (hd : 3 * c.rest.length ≤ depth + 1)
    (h : readMoreItems (depth + 1) c = .found ts next) :
    (∀ t ∈ ts, t.Sited c) ∧ Rising c.place (Tree.itemPositions ts) next.place := by
  rw [readMoreItems] at h
  split at h
  · cases h
    exact ⟨List.forall_mem_nil _, .nil _ _⟩
  · cases h
  · rename_i behind hcomma
    have hlt := comma_shorter hcomma
    split at h
    · cases h
      exact ⟨List.forall_mem_nil _, .nil _ _⟩
    · cases h
    · rename_i hitem
      obtain ⟨more, last, hmore, h⟩ := Outcome.andThen_eq_found h
      cases h
      exact ih.items_cons ((AllAdvance.comma c).of_found hcomma) (by omega) hitem hmore

theorem member_succ {m : Member Tree} (hd : 3 * c.rest.length + 1 ≤ depth + 1)
    (h : readMember (depth + 1) c = .found m next) :
    m.Sited c ∧ Rising c.place (Tree.memberPositions [m]) next.place := by
  rw [readMember] at h
  obtain ⟨_, start, hstart, h⟩ := Outcome.andThen_eq_found h
  obtain ⟨key, c₁, hkey, h⟩ := Outcome.andThen_eq_found h
  obtain ⟨_, c₂, hgap, h⟩ := Outcome.andThen_eq_found h
  obtain ⟨_, c₃, hcolon, h⟩ := Outcome.andThen_eq_found h
  obtain ⟨_, c₄, hgap', h⟩ := Outcome.andThen_eq_found h
  obtain ⟨value, last, hvalue, h⟩ := Outcome.andThen_eq_found h
  obtain ⟨rfl, rfl⟩ := Outcome.found.inj h
  have hvalue := Outcome.required_eq_found hvalue
  have h₀ := (skipGap_advances c).of_found hstart
  have h₁ := (readString_advances start).of_found hkey
  have h₂ := (skipGap_advances c₁).of_found hgap
  have h₃ := ((readChar_advances ':' c₂).required .colon).of_found hcolon
  have h₄ := (skipGap_advances c₃).of_found hgap'
  have hbehind := (h₂.trans h₃).trans h₄
  have hnext := ((allAdvance depth).node c₄).of_found hvalue
  have hle := h₀.length_le
  have hle₁ := h₁.length_le
  have hle₂ := hbehind.length_le
  obtain ⟨hsited, hrising⟩ := ih.node (by omega) hvalue
  constructor
  · exact ⟨⟨start, c₁, h₀, rfl, hkey⟩, hsited.back (h₀.trans (h₁.trans hbehind))⟩
  · have hbefore := (h₁.before (readString_sound hkey).length_lt).upto_trans hbehind.upto
    have hlone := hrising.append (.nil _ _) hnext.upto (.refl _)
    exact (Rising.cons hbefore hlone hnext.upto).widen h₀.upto

/-- A first member and those behind it, in turn. -/
theorem members_cons {m : Member Tree} {more : List (Member Tree)} {last : Cursor} (hc : c.Ahead mid)
    (hd : 3 * mid.rest.length + 1 ≤ depth) (hd' : 3 * next.rest.length ≤ depth)
    (hmember : readMember depth mid = .found m next) (hmore : readMoreMembers depth next = .found more last) :
    (∀ n ∈ m :: more, n.Sited c) ∧ Rising c.place (Tree.memberPositions (m :: more)) last.place := by
  have hnext := ((allAdvance depth).member mid).of_found hmember
  have hlast := ((allAdvance depth).moreMembers next).of_found hmore
  obtain ⟨hsited, hrising⟩ := ih.member hd hmember
  obtain ⟨hsited', hrising'⟩ := ih.moreMembers hd' hmore
  constructor
  · intro n hn
    rcases List.mem_cons.mp hn with rfl | hn
    · exact hsited.back hc
    · exact (hsited' n hn).back (hc.trans hnext)
  · have happend : Tree.memberPositions (m :: more) = Tree.memberPositions [m] ++ Tree.memberPositions more := by
      simp [Tree.memberPositions]
    rw [happend]
    exact (hrising.append hrising' hnext.upto hlast.upto).widen hc.upto

theorem members_succ {ms : List (Member Tree)} (hd : 3 * c.rest.length + 2 ≤ depth + 1)
    (h : readMembers (depth + 1) c = .found ms next) :
    (∀ m ∈ ms, m.Sited c) ∧ Rising c.place (Tree.memberPositions ms) next.place := by
  rw [readMembers] at h
  split at h
  · cases h
    exact ⟨List.forall_mem_nil _, .nil _ _⟩
  · cases h
  · rename_i m between hmember
    obtain ⟨more, last, hmore, h⟩ := Outcome.andThen_eq_found h
    cases h
    have := (((allAdvance depth).member c).of_found hmember).length_le
    exact ih.members_cons (.refl c) (by omega) (by omega) hmember hmore

theorem moreMembers_succ {ms : List (Member Tree)} (hd : 3 * c.rest.length ≤ depth + 1)
    (h : readMoreMembers (depth + 1) c = .found ms next) :
    (∀ m ∈ ms, m.Sited c) ∧ Rising c.place (Tree.memberPositions ms) next.place := by
  rw [readMoreMembers] at h
  split at h
  · cases h
    exact ⟨List.forall_mem_nil _, .nil _ _⟩
  · cases h
  · rename_i behind hcomma
    have hlt := comma_shorter hcomma
    split at h
    · cases h
      exact ⟨List.forall_mem_nil _, .nil _ _⟩
    · cases h
    · rename_i m between hmember
      obtain ⟨more, last, hmore, h⟩ := Outcome.andThen_eq_found h
      cases h
      have := (((allAdvance depth).member behind).of_found hmember).length_le
      exact ih.members_cons ((AllAdvance.comma c).of_found hcomma) (by omega) (by omega) hmember hmore

end Sites

theorem sites (depth : Nat) : Sites depth := by
  induction depth with
  | zero => exact sites_zero
  | succ depth ih =>
    exact ⟨ih.node_succ, ih.items_succ, ih.moreItems_succ, ih.member_succ, ih.members_succ, ih.moreMembers_succ⟩

/-! ## Whole texts -/

/-- A text that is read is a gap, a value and a gap. -/
theorem readRaw_value {text : List Char} (h : readRaw text = .ok t) :
    ∃ start next, (Cursor.start text).Ahead start ∧ readValue start = .found t next := by
  obtain ⟨place, hread⟩ := readRaw_eq_ok h
  obtain ⟨_, start, hgap, hread⟩ := Outcome.andThen_eq_found hread
  obtain ⟨t, c, hnode, hread⟩ := Outcome.andThen_eq_found hread
  obtain ⟨_, last, hgap', hread⟩ := Outcome.andThen_eq_found hread
  obtain ⟨rfl, -⟩ := Outcome.found.inj hread
  have hstart := (skipGap_advances (.start text)).of_found hgap
  have hle : start.rest.length ≤ text.length := hstart.length_le
  have hdepth : 3 * start.rest.length ≤ readDepth text := by
    unfold readDepth
    omega
  refine ⟨start, c, hstart, ?_⟩
  rw [← readNode_eq_readValue hdepth]
  exact Outcome.required_eq_found hnode

theorem readRaw_sited {text : List Char} (h : readRaw text = .ok t) : t.Sited (.start text) := by
  obtain ⟨start, next, hstart, hread⟩ := readRaw_value h
  exact ((sites _).node (by unfold readDepth; omega) hread).1.back hstart

theorem readRaw_rising {text : List Char} (h : readRaw text = .ok t) :
    ∃ ps : List Position, t.positions = ps.map some ∧ ps.Pairwise Before := by
  obtain ⟨start, next, hstart, hread⟩ := readRaw_value h
  obtain ⟨ps, hps, hpairwise, -⟩ := ((sites _).node (by unfold readDepth; omega) hread).2
  exact ⟨ps, hps, hpairwise⟩

end Reshape
