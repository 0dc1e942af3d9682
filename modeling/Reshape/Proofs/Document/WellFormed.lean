/-
  Reshape.Proofs.Document.WellFormed — what a document must be like for its handles to make sense.

  A document says three times where a node hangs: the node names its parent, the parent
  lists the node, and, in an object, lists it under a key. `Linked` says that the three
  agree and that no node hangs below itself; `WellFormed` adds that the root is a node of
  the document and hangs nowhere. That no node has two places, be it in one list or in two,
  is part of this: a list names no node twice, and its nodes all name its owner.

  - `Under d top id`: following parents leads from `id` to `top`, in no step or in some.
  - A document stays linked when the parts of one node are exchanged for nodes that were
    free (`Linked.relink`), whatever else happens to positions and scalars.
-/

import Mathlib.Logic.Relation
import Reshape.Document.Edit

namespace Reshape

open Relation (ReflTransGen TransGen)

theorem NodeId.eq_iff {a b : NodeId} : a = b ↔ a.index = b.index := by
  cases a; cases b; simp

namespace Document

/-! ## Nodes -/

def Holds (d : Document) (id : NodeId) : Prop := id.index < d.nodes.size

instance (d : Document) (id : NodeId) : Decidable (d.Holds id) := inferInstanceAs (Decidable (_ < _))

def parts (d : Document) (id : NodeId) : List NodeId := (d.content id).parts

/-- The node `id` names `owner` as its parent. -/
def Hangs (d : Document) (id owner : NodeId) : Prop := d.parent id = some owner

/-- The node is `top` or lies below it. -/
def Under (d : Document) (top id : NodeId) : Prop := ReflTransGen d.Hangs id top

theorem node_of_not_holds {d : Document} {id : NodeId} (h : ¬ d.Holds id) : d.node id = default := by
  unfold Holds at h
  simp [node, Array.getElem?_eq_none (Nat.le_of_not_lt h)]

theorem parts_of_not_holds {d : Document} {id : NodeId} (h : ¬ d.Holds id) : d.parts id = [] := by
  simp [parts, content, node_of_not_holds h, default, Content.parts]

theorem parent_of_not_holds {d : Document} {id : NodeId} (h : ¬ d.Holds id) : d.parent id = none := by
  simp [parent, node_of_not_holds h, default]

theorem holds_of_mem_parts {d : Document} {id part : NodeId} (h : part ∈ d.parts id) : d.Holds id := by
  apply Classical.byContradiction
  intro hn
  rw [parts_of_not_holds hn] at h
  cases h

theorem holds_of_parent {d : Document} {id owner : NodeId} (h : d.parent id = some owner) : d.Holds id := by
  apply Classical.byContradiction
  intro hn
  rw [parent_of_not_holds hn] at h
  cases h

/-- Documents that say the same of every node are the same. -/
theorem ext_of_nodes {d d' : Document} (hroot : d.root = d'.root) (hsize : d.nodes.size = d'.nodes.size)
    (hcontent : ∀ id, d.content id = d'.content id) (hparent : ∀ id, d.parent id = d'.parent id)
    (hposition : ∀ id, d.position id = d'.position id) : d = d' := by
  have hnode : ∀ id, d.node id = d'.node id := by
    intro id
    show (⟨d.content id, d.parent id, d.position id⟩ : Node) = ⟨d'.content id, d'.parent id, d'.position id⟩
    rw [hcontent, hparent, hposition]
  have hnodes : d.nodes = d'.nodes := by
    refine Array.ext hsize fun i hi hi' => ?_
    simpa [node, hi, hi'] using hnode ⟨i⟩
  cases d
  cases d'
  congr

theorem parts_eq_of_content {d d' : Document} {id : NodeId} (h : d'.content id = d.content id) :
    d'.parts id = d.parts id := by
  simp only [parts, h]

theorem members_eq_of_content {d d' : Document} {id : NodeId} (h : d'.content id = d.content id) :
    d'.members id = d.members id := by
  simp only [members, h]

/-! ## Well-formedness -/

/-- The nodes' three accounts of where they hang agree, and none hangs below itself. -/
structure Linked (d : Document) : Prop where
  parts_held : ∀ {id part : NodeId}, part ∈ d.parts id → d.Holds part
  parts_nodup : ∀ id, (d.parts id).Nodup
  parent_iff : ∀ {part id : NodeId}, d.parent part = some id ↔ part ∈ d.parts id
  keys_nodup : ∀ id, ((d.members id).map Member.key).Nodup
  acyclic : ∀ id, ¬ TransGen d.Hangs id id

/-- The document is linked, and its root is a node that hangs nowhere. -/
structure WellFormed (d : Document) : Prop extends Linked d where
  root_held : d.Holds d.root
  root_free : d.parent d.root = none

def blank : Document := ⟨#[], ⟨0⟩⟩

theorem blank_not_holds (id : NodeId) : ¬ blank.Holds id := by
  simp [Holds, blank]

theorem blank_linked : blank.Linked where
  parts_held h := by rw [parts_of_not_holds (blank_not_holds _)] at h; cases h
  parts_nodup id := by rw [parts_of_not_holds (blank_not_holds _)]; exact List.nodup_nil
  parent_iff := by
    intro part id
    rw [parts_of_not_holds (blank_not_holds _), parent_of_not_holds (blank_not_holds _)]
    simp
  keys_nodup id := by
    simp [members, content, node_of_not_holds (blank_not_holds _), default, Content.members]
  acyclic id h := by
    obtain ⟨next, hn, -⟩ := TransGen.head'_iff.mp h
    rw [Hangs, parent_of_not_holds (blank_not_holds _)] at hn
    cases hn

namespace Linked

variable {d : Document}

theorem holds_owner (h : d.Linked) {id owner : NodeId} (hp : d.parent id = some owner) : d.Holds owner :=
  holds_of_mem_parts (h.parent_iff.mp hp)

theorem parent_ne_self (h : d.Linked) (id : NodeId) : d.parent id ≠ some id := fun hp =>
  h.acyclic id (.single hp)

/-- A node does not lie under its own part. -/
theorem not_under_part (h : d.Linked) {id part : NodeId} (hp : part ∈ d.parts id) : ¬ d.Under part id :=
  fun hu =>
  h.acyclic part (TransGen.head' (h.parent_iff.mpr hp) hu)

/-- Of two nodes above a third, one is above the other. -/
theorem under_or_under {a b id : NodeId} (ha : d.Under a id) (hb : d.Under b id) :
    d.Under b a ∨ d.Under a b :=
  ReflTransGen.total_of_right_unique (fun _ _ _ hx hy => Option.some.inj (hx.symm.trans hy)) ha hb

/-- A part does not lie under another part. -/
theorem eq_of_under_sibling (h : d.Linked) {id a b : NodeId} (ha : a ∈ d.parts id) (hb : b ∈ d.parts id)
    (hu : d.Under b a) : a = b := by
  rcases ReflTransGen.cases_head hu with e | ⟨p, hp, hpb⟩
  · exact e
  · obtain rfl : p = id := Option.some.inj (hp.symm.trans (h.parent_iff.mpr ha))
    exact absurd hpb (h.not_under_part hb)

/-- Nothing lies under two parts of one node. -/
theorem eq_of_under_parts (h : d.Linked) {id a b x : NodeId} (ha : a ∈ d.parts id) (hb : b ∈ d.parts id)
    (hxa : d.Under a x) (hxb : d.Under b x) : a = b := by
  rcases under_or_under hxa hxb with hu | hu
  · exact h.eq_of_under_sibling ha hb hu
  · exact (h.eq_of_under_sibling hb ha hu).symm

end Linked

theorem holds_of_under {d : Document} {top id : NodeId} (ht : d.Holds top) (hu : d.Under top id) :
    d.Holds id := by
  rcases ReflTransGen.cases_head hu with rfl | ⟨c, hic, -⟩
  · exact ht
  · exact holds_of_parent hic

/-! ## Exchanging the parts of a node -/

/-- Edges towards one node `o` close no cycle if they start at nodes that `o` does not lie under. -/
theorem acyclic_of_new_edges {r r' : NodeId → NodeId → Prop} {o : NodeId} {p : NodeId → Prop}
    (hr : ∀ id, ¬ TransGen r id id) (hr' : ∀ a b, r' a b → r a b ∨ (p a ∧ b = o))
    (hnew : ∀ v, p v → ¬ ReflTransGen r o v) (id : NodeId) : ¬ TransGen r' id id := by
  -- A path of the new relation is an old one, or has last used a new edge, from some `v` to `o`.
  have path : ∀ {a b}, TransGen r' a b →
      TransGen r a b ∨ ∃ v, p v ∧ ReflTransGen r a v ∧ ReflTransGen r o b := by
    intro a b h
    induction h with
    | single hab =>
      rcases hr' _ _ hab with hab | ⟨hn, rfl⟩
      · exact Or.inl (.single hab)
      · exact Or.inr ⟨a, hn, .refl, .refl⟩
    | tail _ hbc ih =>
      rcases hr' _ _ hbc with hbc | ⟨hn, rfl⟩
      · rcases ih with ih | ⟨v, hv, hav, hob⟩
        · exact Or.inl (ih.tail hbc)
        · exact Or.inr ⟨v, hv, hav, hob.tail hbc⟩
      · rcases ih with ih | ⟨v, hv, hav, -⟩
        · exact Or.inr ⟨_, hn, ih.to_reflTransGen, .refl⟩
        · exact Or.inr ⟨v, hv, hav, .refl⟩
  intro h
  rcases path h with h | ⟨v, hv, hiv, hoi⟩
  · exact hr id h
  · exact hnew v hv (hoi.trans hiv)

/-- A document stays linked when one node gives up its parts for others: some that it had, and
    some that were free and are not above it. -/
theorem Linked.relink {d d' : Document} (h : d.Linked) (owner : NodeId)
    (hsize : d'.nodes.size = d.nodes.size) (hcontent : ∀ id, id ≠ owner → d'.content id = d.content id)
    (hparts : (d'.parts owner).Nodup) (hkeys : ((d'.members owner).map Member.key).Nodup)
    (hfrom : ∀ part ∈ d'.parts owner, part ∈ d.parts owner ∨
      (d.Holds part ∧ d.parent part = none ∧ ¬ d.Under part owner))
    (hparent : ∀ id, (id ∈ d'.parts owner ∧ d'.parent id = some owner) ∨
      (id ∉ d'.parts owner ∧ id ∈ d.parts owner ∧ d'.parent id = none) ∨
      (id ∉ d'.parts owner ∧ id ∉ d.parts owner ∧ d'.parent id = d.parent id)) :
    d'.Linked where
  parts_held := by
    intro id part hp
    simp only [Holds, hsize]
    by_cases e : id = owner
    · subst e
      rcases hfrom part hp with hp | ⟨hh, -⟩
      · exact h.parts_held hp
      · exact hh
    · rw [parts_eq_of_content (hcontent id e)] at hp
      exact h.parts_held hp
  parts_nodup id := by
    by_cases e : id = owner
    · subst e; exact hparts
    · rw [parts_eq_of_content (hcontent id e)]; exact h.parts_nodup id
  keys_nodup id := by
    by_cases e : id = owner
    · subst e; exact hkeys
    · rw [members_eq_of_content (hcontent id e)]; exact h.keys_nodup id
  parent_iff := by
    intro part id
    -- Away from the owner nothing is gained; what leaves the owner had no other place.
    by_cases e : id = owner
    · subst e
      rcases hparent part with ⟨hm, hp⟩ | ⟨hm, -, hp⟩ | ⟨hm, ho, hp⟩
      · simp [hm, hp]
      · simp [hm, hp]
      · rw [hp, h.parent_iff]; simp [hm, ho]
    · rw [parts_eq_of_content (hcontent id e), ← h.parent_iff]
      rcases hparent part with ⟨hm, hp⟩ | ⟨hm, ho, hp⟩ | ⟨hm, ho, hp⟩
      · have hne : owner ≠ id := Ne.symm e
        have : d.parent part ≠ some id := by
          rcases hfrom part hm with ho | ⟨-, hf, -⟩
          · rw [h.parent_iff.mpr ho]; simpa using hne
          · simp [hf]
        simp [hp, hne, this]
      · rw [hp, h.parent_iff.mpr ho]; simpa using Ne.symm e
      · rw [hp]
  acyclic := by
    refine acyclic_of_new_edges (o := owner) (p := fun v => ¬ d.Under v owner) h.acyclic ?_ (fun v hv => hv)
    intro a b hab
    rcases hparent a with ⟨hm, hp⟩ | ⟨hm, ho, hp⟩ | ⟨hm, ho, hp⟩
    · have hb : owner = b := Option.some.inj (hp.symm.trans hab)
      rcases hfrom a hm with ho | ⟨-, -, hu⟩
      · exact Or.inl (hb ▸ h.parent_iff.mpr ho)
      · exact Or.inr ⟨hu, hb.symm⟩
    · rw [Hangs, hp] at hab; cases hab
    · exact Or.inl (by rw [Hangs, hp] at hab; exact hab)

end Document

end Reshape
