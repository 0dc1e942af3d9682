/-
  Reshape.Proofs.Document.Layout — the nodes of a tree that is laid out in a document.

  A tree's nodes are stored from the first free handle on. `Laid` says what such a stretch
  of nodes is like: its topmost nodes name an owner outside, every other node hangs in a
  node of the stretch that comes before it, and no part lies outside. Stretches laid one
  behind the other are a stretch again (`Laid.append`), and so is a stretch behind the node
  that owns it (`Laid.node`); a tree is laid out from these two (`laid_nodes`).

  - `Grafted.linked`: a linked document stays linked when a stretch is stored at its end,
    whether its topmost nodes hang nowhere or are all that one node has as parts.
  - `WellFormed.add`, `ofTree_wellFormed`: copies and new documents are well-formed.
-/

import Reshape.Proofs.Document.WellFormed
import Reshape.Proofs.Json.Keyed

namespace Reshape

open Relation (ReflTransGen TransGen)

/-! ## A stretch of nodes -/

/-- The node of a handle, if it is one of the nodes that lie from `base` on. -/
def laidAt? (base : Nat) (nodes : List Node) (id : NodeId) : Option Node :=
  if base ≤ id.index then nodes[id.index - base]? else none

theorem laidAt?_bounds {base : Nat} {nodes : List Node} {id : NodeId} {n : Node}
    (h : laidAt? base nodes id = some n) : base ≤ id.index ∧ id.index < base + nodes.length := by
  unfold laidAt? at h
  split at h
  · have := (List.getElem?_eq_some_iff.mp h).1
    omega
  · cases h

theorem laidAt?_nil (base : Nat) (id : NodeId) : laidAt? base [] id = none := by
  simp [laidAt?]

theorem laidAt?_append (base : Nat) (first second : List Node) (id : NodeId) :
    laidAt? base (first ++ second) id =
      if id.index < base + first.length then laidAt? base first id
      else laidAt? (base + first.length) second id := by
  unfold laidAt?
  by_cases hb : base ≤ id.index
  · by_cases hf : id.index < base + first.length
    · simp only [hb, hf, if_true]
      exact List.getElem?_append_left (by omega)
    · have hs : base + first.length ≤ id.index := by omega
      simp only [hb, hf, hs, if_true, if_false]
      rw [List.getElem?_append_right (by omega)]
      congr 1; omega
  · have hf : id.index < base + first.length := by omega
    simp [hb, hf]

theorem laidAt?_cons (base : Nat) (n : Node) (rest : List Node) (id : NodeId) :
    laidAt? base (n :: rest) id = if id = ⟨base⟩ then some n else laidAt? (base + 1) rest id := by
  unfold laidAt?
  by_cases e : id = ⟨base⟩
  · subst e; simp
  · have hne : id.index ≠ base := fun h => e (NodeId.eq_iff.mpr h)
    simp only [e, if_false]
    by_cases hb : base + 1 ≤ id.index
    · have h1 : base ≤ id.index := by omega
      simp only [h1, hb, if_true]
      rw [show id.index - base = (id.index - (base + 1)) + 1 by omega, List.getElem?_cons_succ]
    · have h1 : ¬ base ≤ id.index := by omega
      simp [h1, hb]

def Node.parts (n : Node) : List NodeId := n.content.parts

/-- Nodes that lie from `base` on, the topmost of them under `owner`, the others among themselves. -/
structure Laid (owner : Option NodeId) (base : Nat) (nodes : List Node) (tops : List NodeId) : Prop where
  tops_nodup : tops.Nodup
  tops_hang : ∀ {id}, id ∈ tops → ∃ n, laidAt? base nodes id = some n ∧ n.parent = owner
  others_hang : ∀ {id n}, laidAt? base nodes id = some n → id ∉ tops →
    ∃ above m, laidAt? base nodes above = some m ∧ id ∈ m.parts
  parts_hang : ∀ {id n part}, laidAt? base nodes id = some n → part ∈ n.parts →
    id.index < part.index ∧ part ∉ tops ∧ ∃ m, laidAt? base nodes part = some m ∧ m.parent = some id
  parts_nodup : ∀ {id n}, laidAt? base nodes id = some n → n.parts.Nodup
  keys_nodup : ∀ {id n}, laidAt? base nodes id = some n → (n.content.members.map Member.key).Nodup

namespace Laid

variable {owner : Option NodeId} {base : Nat} {nodes first second : List Node} {tops tops' : List NodeId}

theorem tops_bounds (h : Laid owner base nodes tops) {id : NodeId} (hi : id ∈ tops) :
    base ≤ id.index ∧ id.index < base + nodes.length := by
  obtain ⟨n, hn, -⟩ := h.tops_hang hi
  exact laidAt?_bounds hn

theorem nil (owner : Option NodeId) (base : Nat) : Laid owner base [] [] where
  tops_nodup := List.nodup_nil
  tops_hang h := by cases h
  others_hang h := by rw [laidAt?_nil] at h; cases h
  parts_hang h := by rw [laidAt?_nil] at h; cases h
  parts_nodup h := by rw [laidAt?_nil] at h; cases h
  keys_nodup h := by rw [laidAt?_nil] at h; cases h

theorem at_append_left (base : Nat) (second : List Node) {id : NodeId} {n : Node}
    (h : laidAt? base first id = some n) : laidAt? base (first ++ second) id = some n := by
  rw [laidAt?_append, if_pos (laidAt?_bounds h).2]
  exact h

theorem at_append_right (base : Nat) (first : List Node) {id : NodeId} {n : Node}
    (h : laidAt? (base + first.length) second id = some n) :
    laidAt? base (first ++ second) id = some n := by
  have := (laidAt?_bounds h).1
  rw [laidAt?_append, if_neg (by omega)]
  exact h

theorem at_append_cases {id : NodeId} {n : Node} (h : laidAt? base (first ++ second) id = some n) :
    laidAt? base first id = some n ∨ laidAt? (base + first.length) second id = some n := by
  rw [laidAt?_append] at h
  split at h
  · exact Or.inl h
  · exact Or.inr h

/-- Two stretches one behind the other. -/
theorem append (h : Laid owner base first tops) (h' : Laid owner (base + first.length) second tops') :
    Laid owner base (first ++ second) (tops ++ tops') where
  tops_nodup := by
    rw [List.nodup_append]
    refine ⟨h.tops_nodup, h'.tops_nodup, fun a ha b hb e => ?_⟩
    have := h.tops_bounds ha
    have := h'.tops_bounds hb
    subst e; omega
  tops_hang := by
    intro id hi
    rcases List.mem_append.mp hi with hi | hi
    · obtain ⟨n, hn, ho⟩ := h.tops_hang hi
      exact ⟨n, at_append_left _ _ hn, ho⟩
    · obtain ⟨n, hn, ho⟩ := h'.tops_hang hi
      exact ⟨n, at_append_right _ _ hn, ho⟩
  others_hang := by
    intro id n hn hi
    simp only [List.mem_append, not_or] at hi
    rcases at_append_cases hn with hn | hn
    · obtain ⟨above, m, hm, hp⟩ := h.others_hang hn hi.1
      exact ⟨above, m, at_append_left _ _ hm, hp⟩
    · obtain ⟨above, m, hm, hp⟩ := h'.others_hang hn hi.2
      exact ⟨above, m, at_append_right _ _ hm, hp⟩
  parts_hang := by
    intro id n part hn hp
    rcases at_append_cases hn with hn | hn
    · obtain ⟨hlt, ht, m, hm, ho⟩ := h.parts_hang hn hp
      refine ⟨hlt, fun hi => ?_, m, at_append_left _ _ hm, ho⟩
      rcases List.mem_append.mp hi with hi | hi
      · exact ht hi
      · have := h'.tops_bounds hi
        have := laidAt?_bounds hm
        omega
    · obtain ⟨hlt, ht, m, hm, ho⟩ := h'.parts_hang hn hp
      refine ⟨hlt, fun hi => ?_, m, at_append_right _ _ hm, ho⟩
      rcases List.mem_append.mp hi with hi | hi
      · have := h.tops_bounds hi
        have := laidAt?_bounds hm
        omega
      · exact ht hi
  parts_nodup := by
    intro id n hn
    rcases at_append_cases hn with hn | hn
    · exact h.parts_nodup hn
    · exact h'.parts_nodup hn
  keys_nodup := by
    intro id n hn
    rcases at_append_cases hn with hn | hn
    · exact h.keys_nodup hn
    · exact h'.keys_nodup hn

/-- A stretch behind the node that has its topmost nodes as parts. -/
theorem node {n : Node} (h : Laid (some ⟨base⟩) (base + 1) nodes tops) (hp : n.parts = tops)
    (hk : (n.content.members.map Member.key).Nodup) : Laid n.parent base (n :: nodes) [⟨base⟩] := by
  have lift : ∀ {id m}, laidAt? (base + 1) nodes id = some m → laidAt? base (n :: nodes) id = some m := by
    intro id m hm
    have := (laidAt?_bounds hm).1
    rw [laidAt?_cons, if_neg fun e => by subst e; simp only at this; omega]
    exact hm
  have first : laidAt? base (n :: nodes) ⟨base⟩ = some n := by rw [laidAt?_cons, if_pos rfl]
  have cases : ∀ {id m}, laidAt? base (n :: nodes) id = some m →
      (id = ⟨base⟩ ∧ m = n) ∨ laidAt? (base + 1) nodes id = some m := by
    intro id m hm
    rw [laidAt?_cons] at hm
    split at hm
    · exact Or.inl ⟨‹_›, (Option.some.inj hm).symm⟩
    · exact Or.inr hm
  constructor
  case tops_nodup => simp
  case tops_hang =>
    intro id hi
    obtain rfl : id = ⟨base⟩ := by simpa using hi
    exact ⟨n, first, rfl⟩
  case others_hang =>
    intro id m hm hi
    rcases cases hm with ⟨e, -⟩ | hm
    · exact absurd e (by simpa using hi)
    · by_cases ht : id ∈ tops
      · exact ⟨⟨base⟩, n, first, hp ▸ ht⟩
      · obtain ⟨above, o, ho, hmem⟩ := h.others_hang hm ht
        exact ⟨above, o, lift ho, hmem⟩
  case parts_hang =>
    intro id m part hm hpart
    rcases cases hm with ⟨rfl, rfl⟩ | hm
    · rw [hp] at hpart
      have hb := (h.tops_bounds hpart).1
      obtain ⟨o, ho, hop⟩ := h.tops_hang hpart
      exact ⟨hb, fun e => by simp [NodeId.eq_iff] at e; omega, o, lift ho, hop⟩
    · obtain ⟨hlt, -, o, ho, hop⟩ := h.parts_hang hm hpart
      have hb := (laidAt?_bounds ho).1
      exact ⟨hlt, fun e => by simp [NodeId.eq_iff] at e; omega, o, lift ho, hop⟩
  case parts_nodup =>
    intro id m hm
    rcases cases hm with ⟨-, rfl⟩ | hm
    · rw [hp]; exact h.tops_nodup
    · exact h.parts_nodup hm
  case keys_nodup =>
    intro id m hm
    rcases cases hm with ⟨-, rfl⟩ | hm
    · exact hk
    · exact h.keys_nodup hm

end Laid

/-! ## The nodes of a tree -/

mutual

theorem length_nodes (parent : Option NodeId) (base : Nat) (t : Tree) :
    (t.nodes parent base).length = t.size := by
  match t with
  | ⟨_, .scalar _⟩ => simp [Tree.nodes, Content.nodes, Tree.size]
  | ⟨_, .array items⟩ =>
    simp [Tree.nodes, Content.nodes, Tree.size, length_itemNodes _ _ items, Nat.add_comm]
  | ⟨_, .object members⟩ =>
    simp [Tree.nodes, Content.nodes, Tree.size, length_memberNodes _ _ members, Nat.add_comm]

theorem length_itemNodes (owner : NodeId) (base : Nat) (items : List Tree) :
    (itemNodes owner base items).length = Tree.itemsSize items := by
  match items with
  | [] => rfl
  | t :: rest => simp [itemNodes, Tree.itemsSize, length_nodes _ _ t, length_itemNodes _ _ rest]

theorem length_memberNodes (owner : NodeId) (base : Nat) (members : List (Member Tree)) :
    (memberNodes owner base members).length = Tree.membersSize members := by
  match members with
  | [] => rfl
  | ⟨_, _, t⟩ :: rest =>
    simp [memberNodes, Tree.membersSize, length_nodes _ _ t, length_memberNodes _ _ rest]

end

theorem size_pos (t : Tree) : 0 < t.size := by
  obtain ⟨position, content⟩ := t
  cases content <;> simp only [Tree.size] <;> omega

theorem keys_memberIds (base : Nat) (members : List (Member Tree)) :
    (memberIds base members).map Member.key = members.map Member.key := by
  induction members generalizing base with
  | nil => rfl
  | cons m rest ih => simp [memberIds, ih]

theorem keys_ids (base : Nat) (c : Content Tree) :
    (c.ids base).members.map Member.key = c.members.map Member.key := by
  cases c with
  | object members => exact keys_memberIds base members
  | _ => rfl

mutual

/-- A tree with unique keys is laid out with its root as the only topmost node. -/
theorem laid_nodes (parent : Option NodeId) (base : Nat) (t : Tree) (ht : t.Keyed) :
    Laid parent base (t.nodes parent base) [⟨base⟩] := by
  match t with
  | ⟨position, .scalar s⟩ =>
    exact Laid.node (n := ⟨.scalar s, parent, position⟩) (.nil _ _) rfl List.nodup_nil
  | ⟨position, .array items⟩ =>
    have hi : Tree.ItemsKeyed items := by simpa [Tree.Keyed] using ht
    exact Laid.node (n := ⟨.array (itemIds (base + 1) items), parent, position⟩)
      (laid_itemNodes ⟨base⟩ (base + 1) items hi) rfl List.nodup_nil
  | ⟨position, .object members⟩ =>
    obtain ⟨hk, hm⟩ : (members.map Member.key).Nodup ∧ Tree.MembersKeyed members := by
      simpa [Tree.Keyed] using ht
    refine Laid.node (n := ⟨.object (memberIds (base + 1) members), parent, position⟩)
      (laid_memberNodes ⟨base⟩ (base + 1) members hm) rfl ?_
    show ((memberIds (base + 1) members).map Member.key).Nodup
    rw [keys_memberIds]; exact hk

theorem laid_itemNodes (owner : NodeId) (base : Nat) (items : List Tree) (hi : Tree.ItemsKeyed items) :
    Laid (some owner) base (itemNodes owner base items) (itemIds base items) := by
  match items with
  | [] => exact .nil _ _
  | t :: rest =>
    obtain ⟨ht, hr⟩ : t.Keyed ∧ Tree.ItemsKeyed rest := hi
    have h := laid_itemNodes owner (base + t.size) rest hr
    rw [← length_nodes (some owner) base t] at h
    simpa [itemNodes, itemIds, length_nodes] using (laid_nodes (some owner) base t ht).append h

theorem laid_memberNodes (owner : NodeId) (base : Nat) (members : List (Member Tree))
    (hm : Tree.MembersKeyed members) :
    Laid (some owner) base (memberNodes owner base members)
      ((memberIds base members).map Member.value) := by
  match members with
  | [] => exact .nil _ _
  | ⟨_, _, t⟩ :: rest =>
    obtain ⟨ht, hr⟩ : t.Keyed ∧ Tree.MembersKeyed rest := hm
    have h := laid_memberNodes owner (base + t.size) rest hr
    rw [← length_nodes (some owner) base t] at h
    simpa [memberNodes, memberIds, length_nodes] using (laid_nodes (some owner) base t ht).append h

end

/-- The parts of a tree with unique keys, laid out under a node of the document. -/
theorem laid_content (owner : NodeId) (base : Nat) (t : Tree) (ht : t.Keyed) :
    Laid (some owner) base (t.content.nodes owner base) (t.content.ids base).parts := by
  obtain ⟨position, content⟩ := t
  cases content with
  | scalar s => exact .nil _ _
  | array items => exact laid_itemNodes owner base items (by simpa [Tree.Keyed] using ht)
  | object members =>
    obtain ⟨-, hm⟩ : (members.map Member.key).Nodup ∧ Tree.MembersKeyed members := by
      simpa [Tree.Keyed] using ht
    exact laid_memberNodes owner base members hm

namespace Document

/-! ## A stretch at the end of a document -/

/-- A stretch of nodes is stored at the end of a document. Its topmost nodes hang nowhere, or become the
    parts of a node that has none. -/
structure Grafted (owner : Option NodeId) (nodes : List Node) (tops : List NodeId) (d d' : Document) :
    Prop where
  laid : Laid owner d.nodes.size nodes tops
  size_eq : d'.nodes.size = d.nodes.size + nodes.length
  content_eq : ∀ {id}, d.Holds id → owner ≠ some id → d'.content id = d.content id
  parent_eq : ∀ {id}, d.Holds id → d'.parent id = d.parent id
  node_eq : ∀ {id n}, laidAt? d.nodes.size nodes id = some n → d'.node id = n
  owned : ∀ {id}, owner = some id → d.Holds id ∧ d.parts id = [] ∧ d'.parts id = tops ∧
    ((d'.members id).map Member.key).Nodup

namespace Grafted

variable {owner : Option NodeId} {nodes : List Node} {tops : List NodeId} {d d' : Document}
  {id part : NodeId} {n : Node}

theorem exists_at (g : Grafted owner nodes tops d d') (hh : d'.Holds id) (hn : ¬ d.Holds id) :
    ∃ n, laidAt? d.nodes.size nodes id = some n := by
  simp only [Holds, g.size_eq] at hh hn
  have hlt : id.index - d.nodes.size < nodes.length := by omega
  refine ⟨nodes[id.index - d.nodes.size], ?_⟩
  unfold laidAt?
  rw [if_pos (by omega)]
  exact List.getElem?_eq_getElem hlt

theorem not_holds_at (hn : laidAt? d.nodes.size nodes id = some n) : ¬ d.Holds id := by
  have := (laidAt?_bounds hn).1
  simp only [Holds]; omega

theorem holds_at (g : Grafted owner nodes tops d d') (hn : laidAt? d.nodes.size nodes id = some n) :
    d'.Holds id := by
  have := (laidAt?_bounds hn).2
  simp only [Holds, g.size_eq]; omega

theorem parts_at (g : Grafted owner nodes tops d d') (hn : laidAt? d.nodes.size nodes id = some n) :
    d'.parts id = n.parts := by
  simp only [parts, content, g.node_eq hn, Node.parts]

theorem parent_at (g : Grafted owner nodes tops d d') (hn : laidAt? d.nodes.size nodes id = some n) :
    d'.parent id = n.parent := by
  simp only [parent, g.node_eq hn]

/-- Where a node of the new document has its parts from. -/
theorem parts_cases (g : Grafted owner nodes tops d d') (id : NodeId) :
    (d.Holds id ∧ owner ≠ some id ∧ d'.parts id = d.parts id) ∨ (owner = some id ∧ d'.parts id = tops) ∨
      (∃ n, laidAt? d.nodes.size nodes id = some n ∧ d'.parts id = n.parts) ∨ d'.parts id = [] := by
  by_cases ho : owner = some id
  · exact Or.inr (Or.inl ⟨ho, (g.owned ho).2.2.1⟩)
  by_cases hh : d.Holds id
  · exact Or.inl ⟨hh, ho, parts_eq_of_content (g.content_eq hh ho)⟩
  by_cases hh' : d'.Holds id
  · obtain ⟨n, hn⟩ := g.exists_at hh' hh
    exact Or.inr (Or.inr (Or.inl ⟨n, hn, g.parts_at hn⟩))
  · exact Or.inr (Or.inr (Or.inr (parts_of_not_holds hh')))

theorem keys_nodup (g : Grafted owner nodes tops d d') (h : d.Linked) (id : NodeId) :
    ((d'.members id).map Member.key).Nodup := by
  by_cases ho : owner = some id
  · exact (g.owned ho).2.2.2
  by_cases hh : d.Holds id
  · rw [members_eq_of_content (g.content_eq hh ho)]; exact h.keys_nodup id
  by_cases hh' : d'.Holds id
  · obtain ⟨n, hn⟩ := g.exists_at hh' hh
    simp only [members, content, g.node_eq hn]
    exact g.laid.keys_nodup hn
  · simp [members, content, node_of_not_holds hh', default, Content.members]

/-- A node that was stored is a topmost one and hangs under the owner, or hangs in one stored before it. -/
theorem parent_cases (g : Grafted owner nodes tops d d') (hn : laidAt? d.nodes.size nodes part = some n) :
    (part ∈ tops ∧ d'.parent part = owner) ∨
      ∃ above m, laidAt? d.nodes.size nodes above = some m ∧ part ∈ m.parts ∧ above.index < part.index ∧
        d'.parent part = some above := by
  rw [g.parent_at hn]
  by_cases ht : part ∈ tops
  · obtain ⟨m, hm, hmo⟩ := g.laid.tops_hang ht
    obtain rfl : n = m := Option.some.inj (hn.symm.trans hm)
    exact Or.inl ⟨ht, hmo⟩
  · obtain ⟨above, m, hm, hmem⟩ := g.laid.others_hang hn ht
    obtain ⟨hlt, -, o, ho, hop⟩ := g.laid.parts_hang hm hmem
    obtain rfl : n = o := Option.some.inj (hn.symm.trans ho)
    exact Or.inr ⟨above, m, hm, hmem, hlt, hop⟩

/-- A node that was there is listed where it was: the new lists name new nodes only. -/
theorem mem_parts_held (g : Grafted owner nodes tops d d') (hh : d.Holds part) :
    part ∈ d'.parts id ↔ part ∈ d.parts id := by
  rcases g.parts_cases id with ⟨-, -, e⟩ | ⟨ho, e⟩ | ⟨n, hn, e⟩ | e <;> rw [e]
  · rw [(g.owned ho).2.1]
    refine ⟨fun hp => ?_, fun hp => (by cases hp)⟩
    obtain ⟨n, hn, -⟩ := g.laid.tops_hang hp
    exact absurd hh (not_holds_at hn)
  · refine ⟨fun hp => ?_, fun hp => absurd (holds_of_mem_parts hp) (not_holds_at hn)⟩
    obtain ⟨-, -, m, hm, -⟩ := g.laid.parts_hang hn hp
    exact absurd hh (not_holds_at hm)
  · refine ⟨fun hp => (by cases hp), fun hp => ?_⟩
    have hi := holds_of_mem_parts hp
    by_cases ho : owner = some id
    · rw [(g.owned ho).2.1] at hp; cases hp
    · rw [← parts_eq_of_content (g.content_eq hi ho), e] at hp; exact hp

/-- A node that was stored is listed by its parent. -/
theorem mem_parts_at (g : Grafted owner nodes tops d d') (h : d.Linked)
    (hn : laidAt? d.nodes.size nodes part = some n) : d'.parent part = some id ↔ part ∈ d'.parts id := by
  constructor
  · intro hp
    rcases g.parent_cases hn with ⟨ht, e⟩ | ⟨above, m, hm, hmem, -, e⟩
    · rw [(g.owned (e.symm.trans hp)).2.2.1]; exact ht
    · obtain rfl : id = above := Option.some.inj (hp.symm.trans e)
      rw [g.parts_at hm]; exact hmem
  · intro hp
    rw [g.parent_at hn]
    rcases g.parts_cases id with ⟨-, -, e⟩ | ⟨ho, e⟩ | ⟨m, hm, e⟩ | e <;> rw [e] at hp
    · exact absurd (h.parts_held hp) (not_holds_at hn)
    · obtain ⟨m, hm, hmo⟩ := g.laid.tops_hang hp
      obtain rfl : n = m := Option.some.inj (hn.symm.trans hm)
      exact hmo.trans ho
    · obtain ⟨-, -, o, ho, hop⟩ := g.laid.parts_hang hm hp
      obtain rfl : n = o := Option.some.inj (hn.symm.trans ho)
      exact hop
    · cases hp

theorem parts_held (g : Grafted owner nodes tops d d') (h : d.Linked) (hp : part ∈ d'.parts id) :
    d'.Holds part := by
  rcases g.parts_cases id with ⟨-, -, e⟩ | ⟨-, e⟩ | ⟨n, hn, e⟩ | e <;> rw [e] at hp
  · have := h.parts_held hp
    simp only [Holds, g.size_eq] at this ⊢; omega
  · obtain ⟨n, hn, -⟩ := g.laid.tops_hang hp
    exact g.holds_at hn
  · obtain ⟨-, -, m, hm, -⟩ := g.laid.parts_hang hn hp
    exact g.holds_at hm
  · cases hp

/-- From an old node one gets to old nodes, by old steps; from a new one, to earlier nodes. -/
theorem path_cases (g : Grafted owner nodes tops d d') (h : d.Linked) {a b : NodeId}
    (hab : TransGen d'.Hangs a b) :
    (d.Holds a → TransGen d.Hangs a b ∧ d.Holds b) ∧ (¬ d.Holds a → b.index < a.index) := by
  have old : ∀ {a b}, d'.Hangs a b → d.Holds a → d.Hangs a b ∧ d.Holds b := by
    intro a b hab hh
    rw [Hangs, g.parent_eq hh] at hab
    exact ⟨hab, h.holds_owner hab⟩
  have down : ∀ {a b}, d'.Hangs a b → ¬ d.Holds a → b.index < a.index := by
    intro a b hab hn
    obtain ⟨n, hna⟩ := g.exists_at (holds_of_parent hab) hn
    have hb := (laidAt?_bounds hna).1
    rcases g.parent_cases hna with ⟨-, e⟩ | ⟨above, m, -, -, hlt, e⟩
    · have := (g.owned (e.symm.trans hab)).1
      simp only [Holds] at this; omega
    · obtain rfl : b = above := Option.some.inj (hab.symm.trans e)
      exact hlt
  induction hab using TransGen.head_induction_on with
  | single hab => exact ⟨fun hh => ⟨.single (old hab hh).1, (old hab hh).2⟩, down hab⟩
  | @head a c hac _ ih =>
    refine ⟨fun hh => ?_, fun hn => ?_⟩
    · obtain ⟨hc, hhc⟩ := old hac hh
      exact ⟨.head hc (ih.1 hhc).1, (ih.1 hhc).2⟩
    · have hlt := down hac hn
      by_cases hc : d.Holds c
      · have hb := (ih.1 hc).2
        simp only [Holds] at hb hn; omega
      · have := ih.2 hc; omega

/-- The document stays linked. -/
theorem linked (g : Grafted owner nodes tops d d') (h : d.Linked) : d'.Linked where
  parts_held hp := g.parts_held h hp
  parts_nodup id := by
    rcases g.parts_cases id with ⟨-, -, e⟩ | ⟨-, e⟩ | ⟨n, hn, e⟩ | e <;> rw [e]
    · exact h.parts_nodup id
    · exact g.laid.tops_nodup
    · exact g.laid.parts_nodup hn
    · exact List.nodup_nil
  parent_iff := by
    intro part id
    by_cases hh : d.Holds part
    · rw [g.parent_eq hh, h.parent_iff, g.mem_parts_held hh]
    by_cases hh' : d'.Holds part
    · obtain ⟨n, hn⟩ := g.exists_at hh' hh
      exact g.mem_parts_at h hn
    · rw [parent_of_not_holds hh']
      exact ⟨fun hp => (by cases hp), fun hp => absurd (g.parts_held h hp) hh'⟩
  keys_nodup := g.keys_nodup h
  acyclic id hi := by
    obtain ⟨old, new⟩ := g.path_cases h hi
    by_cases hh : d.Holds id
    · exact h.acyclic id (old hh).1
    · exact absurd (new hh) (Nat.lt_irrefl _)

end Grafted

/-! ## Copies and new documents -/

@[simp] theorem root_store (d : Document) (nodes : List Node) : (d.store nodes).root = d.root := rfl

@[simp] theorem size_store (d : Document) (nodes : List Node) :
    (d.store nodes).nodes.size = d.nodes.size + nodes.length := by
  simp [store]

theorem node_store_held {d : Document} {id : NodeId} (nodes : List Node) (h : d.Holds id) :
    (d.store nodes).node id = d.node id := by
  unfold Holds at h
  simp [store, node, Array.getElem?_append_left h]

theorem node_store_laid {d : Document} {nodes : List Node} {id : NodeId} {n : Node}
    (h : laidAt? d.nodes.size nodes id = some n) : (d.store nodes).node id = n := by
  have hb := (laidAt?_bounds h).1
  unfold laidAt? at h
  rw [if_pos hb] at h
  simp [store, node, Array.getElem?_append_right hb, h]

@[simp] theorem size_add (d : Document) (t : Tree) (parent : Option NodeId) :
    (d.add t parent).nodes.size = d.nodes.size + t.size := by
  simp [add, length_nodes]

theorem node_add_held {d : Document} {id : NodeId} (t : Tree) (parent : Option NodeId) (h : d.Holds id) :
    (d.add t parent).node id = d.node id := node_store_held _ h

theorem holds_add {d : Document} {id : NodeId} (t : Tree) (parent : Option NodeId) (h : d.Holds id) :
    (d.add t parent).Holds id := by
  simp only [Holds, size_add] at h ⊢
  omega

/-- The first free handle is in use once a tree has been copied there. -/
theorem holds_nextId_add (d : Document) (t : Tree) (parent : Option NodeId) :
    (d.add t parent).Holds d.nextId := by
  have := size_pos t
  simp only [Holds, size_add, nextId]
  omega

theorem parent_nextId_add (d : Document) {t : Tree} (ht : t.Keyed) (parent : Option NodeId) :
    (d.add t parent).parent d.nextId = parent := by
  obtain ⟨n, hn, hp⟩ := (laid_nodes parent d.nodes.size t ht).tops_hang (List.mem_singleton.mpr rfl)
  show ((d.store _).node _).parent = parent
  rw [nextId, node_store_laid hn, hp]

/-- A copy is a stretch of nodes at the end of the document, with nothing above it. -/
theorem grafted_add (d : Document) {t : Tree} (ht : t.Keyed) :
    Grafted none (t.nodes none d.nodes.size) [d.nextId] d (d.add t none) := by
  refine ⟨laid_nodes none d.nodes.size t ht, by simp [Document.add], ?_, ?_, ?_, ?_⟩
  · intro id hh _
    simp only [content, node_add_held t none hh]
  · intro id hh
    simp only [parent, node_add_held t none hh]
  · intro id n hn
    exact node_store_laid hn
  · intro id ho
    cases ho

theorem Linked.add {d : Document} (h : d.Linked) {t : Tree} (ht : t.Keyed) : (d.add t none).Linked :=
  (grafted_add d ht).linked h

theorem WellFormed.add {d : Document} (h : d.WellFormed) {t : Tree} (ht : t.Keyed) :
    (d.add t none).WellFormed where
  toLinked := h.toLinked.add ht
  root_held := holds_add t none h.root_held
  root_free := by
    show ((d.add t none).node d.root).parent = none
    rw [node_add_held t none h.root_held]
    exact h.root_free

theorem ofTree_eq_add (t : Tree) : ofTree t = blank.add t none := by
  simp [ofTree, add, store, blank]

/-- A new document is well-formed if the tree it is made of has unique keys. -/
theorem ofTree_wellFormed {t : Tree} (ht : t.Keyed) : (ofTree t).WellFormed := by
  rw [ofTree_eq_add]
  exact ⟨blank_linked.add ht, holds_nextId_add blank t none, parent_nextId_add blank ht none⟩

theorem ofValue_wellFormed {v : Value} (h : v.Keyed) : (ofValue v).WellFormed :=
  ofTree_wellFormed (Tree.keyed_ofValue v h)

/-- Reading a text gives a tree with unique keys. -/
theorem treeParse_keyed {text : String} {t : Tree} (h : Tree.parse text = .ok t) : t.Keyed := by
  unfold Tree.parse at h
  cases hr : readRaw (withoutMark text.toList) with
  | error f => rw [hr] at h; cases h
  | ok raw =>
    rw [hr] at h
    obtain rfl : raw.distinct = t := Except.ok.inj h
    exact Tree.distinct_keyed raw

theorem parse_wellFormed {text : String} {d : Document} (h : parse text = .ok d) : d.WellFormed := by
  unfold parse at h
  cases ht : Tree.parse text with
  | error f => rw [ht] at h; cases h
  | ok t =>
    rw [ht] at h
    obtain rfl : ofTree t = d := Except.ok.inj h
    exact ofTree_wellFormed (treeParse_keyed ht)

end Document

end Reshape
