/-
  Reshape.Proofs.Transform.Locality — what work on a node leaves alone.

  A transform applied to a node works on what is under the node and on what it has stored
  itself. There is one way out: a node that leaves its parent, or whose property gets another
  name, changes the list that it hangs in. Work on a node can ask that of the node itself, of
  nothing else outside (`Confined.site_cases`), so of all that lies outside only the list of
  the node's own parent can change, and only in what it says of the node and of siblings that
  stand in the way of its new name. How deep transforms are nested, which nodes paths find,
  whether handles have been detached on the way, and whether the work ends well makes no
  difference.

  - `Spared`: the invariant of the work, kept by each change (`Spared.perform`).
  - `LocalTo`: what it comes to for each node outside: its content, position, parent and tree.
  - `applyTransform_localTo`: applying a transform is local to the node.
-/

import Reshape.Proofs.Document.Contents
import Reshape.Proofs.Transform.Chaining

namespace Reshape

open Relation (ReflTransGen)

namespace Document

variable {d d' : Document} {top node id : NodeId} {c : Change}

def Outside (d : Document) (node id : NodeId) : Prop := d.Holds id ∧ ¬ d.Under node id

theorem Outside.not_within (ho : d.Outside node id) : ¬ d.Within node id := fun hw =>
  hw.elim (fun hn => hn ho.1) ho.2

/-- The parent of a node is outside. -/
theorem Linked.outside_parent (h : d.Linked) {owner : NodeId} (hp : d.parent node = some owner) :
    d.Outside node owner :=
  ⟨h.holds_owner hp, h.not_under_part (h.parent_iff.mp hp)⟩

/-! ## The way out -/

/-- The site of a change within reach is within reach too, unless the change takes the node itself
    out of its parent or names it anew there. -/
theorem Confined.site_cases (h : Confined d top d') (hl : Local d top d' c) :
    d.Within top (c.site d') ∨ ((c = .detach top ∨ ∃ name, c = .rename top name) ∧
      d.parent top = some (c.site d') ∧ d'.parent top = some (c.site d')) := by
  have holder : ∀ {target}, d.Within top target → d.Within top ((d'.parent target).getD target) ∨
      (target = top ∧ d.parent top = some ((d'.parent target).getD target) ∧
        d'.parent top = some ((d'.parent target).getD target)) := by
    intro target hw
    cases hp : d'.parent target with
    | none => exact Or.inl hw
    | some owner =>
      by_cases hh : d.Holds target
      · have hpd := h.parent_eq hh hp
        rcases ReflTransGen.cases_head (hw.resolve_left fun hn => hn hh) with rfl | ⟨q, hq, hu⟩
        · exact Or.inr ⟨rfl, hpd, hp⟩
        · obtain rfl : q = owner := Option.some.inj (hq.symm.trans hpd)
          exact Or.inl (Or.inr hu)
      · exact Or.inl (h.fresh_parent hh hp)
  cases c with
  | detach target => exact (holder hl.within).imp_right fun ⟨e, hp⟩ => ⟨Or.inl (e ▸ rfl), hp⟩
  | rename target name => exact (holder hl.within).imp_right fun ⟨e, hp⟩ => ⟨Or.inr ⟨name, e ▸ rfl⟩, hp⟩
  | _ => exact Or.inl hl.within

/-! ## What every change keeps -/

/-- `d'` has come from `d` by work on the node that has kept to what is under it, and to the list that
    it hangs in. -/
structure Spared (d : Document) (node : NodeId) (d' : Document) : Prop extends Confined d node d' where
  position : ∀ {id}, d.Outside node id → d'.position id = d.position id
  content : ∀ {id}, d.Outside node id → d.parent node ≠ some id → d'.content id = d.content id
  listed : ∀ {owner}, d.parent node = some owner → ∃ names,
    d'.content owner = (d.content owner).renamed node names ∨
      d'.content owner = ((d.content owner).renamed node names).omitting node

namespace Spared

theorem refl (h : d.WellFormed) (node : NodeId) : Spared d node d where
  toConfined := .refl h node
  position _ := rfl
  content _ _ := rfl
  listed _ := ⟨[], Or.inl (by simp)⟩

/-- A change at the parent of the node leaves its position alone, and takes the node out or renames it. -/
theorem perform_holder (h : Spared d node d') (hc : c = .detach node ∨ ∃ name, c = .rename node name)
    {owner : NodeId} (hp : d.parent node = some owner) (hp' : d'.parent node = some owner) :
    (∀ x, (d'.perform c).position x = d'.position x) ∧
      (∀ x, x ≠ owner → (d'.perform c).content x = d'.content x) ∧
      ∃ names, (d'.perform c).content owner = (d.content owner).renamed node names ∨
        (d'.perform c).content owner = ((d.content owner).renamed node names).omitting node := by
  -- The parent still lists the node, so it has not let go of it before.
  obtain ⟨names, hnames⟩ : ∃ names, d'.content owner = (d.content owner).renamed node names := by
    obtain ⟨names, e | e⟩ := h.listed hp
    · exact ⟨names, e⟩
    · have hm : node ∈ d'.parts owner := h.wellFormed.parent_iff.mp hp'
      rw [parts, e] at hm
      exact absurd hm Content.not_mem_parts_omitting
  rcases hc with rfl | ⟨name, rfl⟩
  · have hcontent := h.wellFormed.content_detach hp'
    refine ⟨position_detach d' node, fun x hx => (hcontent x).trans (if_neg hx), names, Or.inr ?_⟩
    rw [hcontent, if_pos rfl, hnames]
  · have hcontent := h.wellFormed.content_rename hp' name
    refine ⟨position_rename d' node name, fun x hx => (hcontent x).trans (if_neg hx), names ++ [name], Or.inl ?_⟩
    rw [hcontent, if_pos rfl, hnames, Content.renamed_concat]

/-- A further change of the work. -/
theorem perform (h : Spared d node d') (hd : d.Linked) (hl : Local d node d' c) :
    Spared d node (d'.perform c) := by
  have hconfined := h.toConfined.perform hl
  rcases h.toConfined.site_cases hl with hw | ⟨hc, hp, hp'⟩
  · have he := h.wellFormed.perform_edited hl.fits
    have helse : ∀ {id}, d.Outside node id → (d'.perform c).content id = d'.content id ∧
        (d'.perform c).position id = d'.position id := fun ho =>
      he.elsewhere (h.holds ho.1) fun e => ho.not_within (e ▸ hw)
    refine ⟨hconfined, fun ho => (helse ho).2.trans (h.position ho),
      fun ho hne => (helse ho).1.trans (h.content ho hne), fun hp => ?_⟩
    rw [(helse (hd.outside_parent hp)).1]
    exact h.listed hp
  · obtain ⟨hposition, hcontent, hlisted⟩ := h.perform_holder hc hp hp'
    refine ⟨hconfined, fun ho => (hposition _).trans (h.position ho), fun ho hne => ?_, fun hq => ?_⟩
    · exact (hcontent _ fun e => hne (hp.trans (congrArg some e.symm))).trans (h.content ho hne)
    · obtain rfl := Option.some.inj (hp.symm.trans hq)
      exact hlisted

end Spared

/-! ## What is left of the rest -/

/-- `d'` differs from `d` in what is under `node`, and outside only in how the node's parent lists it. -/
structure LocalTo (d : Document) (node : NodeId) (d' : Document) : Prop where
  root : d'.root = d.root
  held : ∀ {id}, d.Outside node id → d'.Holds id
  position : ∀ {id}, d.Outside node id → d'.position id = d.position id
  content : ∀ {id}, d.Outside node id → d.parent node ≠ some id → d'.content id = d.content id
  /-- The parent of the node may list it under other keys, without the siblings that had them, or no
      more. All else is listed in the same order, under the same keys, with the same key positions. -/
  listed : ∀ {owner}, d.parent node = some owner → ∃ names,
    d'.content owner = (d.content owner).renamed node names ∨
      d'.content owner = ((d.content owner).renamed node names).omitting node
  /-- A sibling that is not listed any more loses its parent; nothing else does. -/
  parent : ∀ {id}, d.Outside node id → d'.parent id = d.parent id ∨
    (d'.parent id = none ∧ ∃ owner, d.parent node = some owner ∧ d.parent id = some owner ∧
      id ∉ d'.parts owner)
  /-- What is neither under the node nor above it, such as each of its siblings, reads as before. -/
  tree : ∀ {id}, d.Outside node id → ¬ d.Under id node → d'.tree id = d.tree id

theorem Spared.localTo (h : Spared d node d') (hd : d.Linked) : LocalTo d node d' where
  root := h.root_eq
  held ho := h.holds ho.1
  position := h.position
  content := h.content
  listed := h.listed
  parent := by
    intro id ho
    cases hp : d.parent id with
    | none => exact Or.inl (by rcases h.parent_cases ho.1 with e | e <;> rw [e, ← hp])
    | some owner =>
      refine (h.parent_cases ho.1).imp (·.trans hp) fun hnone => ⟨hnone, owner, ?_⟩
      have hgone : id ∉ d'.parts owner := fun hm => by
        rw [h.wellFormed.parent_iff.mpr hm] at hnone; cases hnone
      -- An owner that is not the node's lists what it did.
      have howner : d.parent node = some owner := by
        apply Classical.byContradiction
        intro hne
        have hout : d.Outside node owner := ⟨hd.holds_owner hp, fun hu => ho.2 (.head hp hu)⟩
        exact hgone (parts_eq_of_content (h.content hout hne) ▸ hd.parent_iff.mp hp)
      exact ⟨howner, rfl, hgone⟩
  tree := by
    intro id ho hu
    refine tree_congr hd h.wellFormed.toLinked id fun x hx => ?_
    have hout : d.Outside node x := by
      refine ⟨holds_of_under ho.1 hx, fun hn => ?_⟩
      exact (Linked.under_or_under hn hx).elim hu ho.2
    exact ⟨h.content hout fun hp => hu (.head hp hx), h.position hout⟩

end Document

open Document (Spared LocalTo)

/-- Applying a transform to a node is local to the node, whether it succeeds or fails. -/
theorem applyTransform_localTo {s : Session} {node : NodeId} {t : Tree} (h : s.document.WellFormed)
    (hn : s.document.Holds node) (ht : t.Keyed) :
    LocalTo s.document node ((applyTransform t node).exec s).2.document := by
  have hwork := applyTransform_obeys.keeps h hn ht
  have hspared : Spared s.document node ((applyTransform t node).exec s).2.document :=
    hwork.preserves (.refl h node) fun _ _ hs hl => hs.perform h.toLinked hl
  exact hspared.localTo h.toLinked

def threesome : Document :=
  .ofValue (.object [("a", .object [("x", .scalar .null)]), ("b", .array []), ("c", .scalar (.bool true))])

/-- The transform that gives its object the name `b` and then fails, for want of a value to merge. -/
def takeover : Tree :=
  .ofValue (.object [("@jdt.rename", .object [("@jdt.path", .ofString "$"), ("@jdt.value", .ofString "b")]),
    ("@jdt.merge", .object [("@jdt.path", .ofString "$")])])

/-- The first of three properties takes the name of the second, which is dropped. -/
theorem takeover_localTo_first :
    LocalTo threesome ⟨1⟩ ((applyTransform takeover ⟨1⟩).exec ⟨threesome, []⟩).2.document ∧
      ((applyTransform takeover ⟨1⟩).exec ⟨threesome, []⟩).2.document.content ⟨0⟩ =
        .object [⟨"b", none, ⟨1⟩⟩, ⟨"c", none, ⟨4⟩⟩] :=
  ⟨applyTransform_localTo (s := ⟨threesome, []⟩)
    (Document.ofValue_wellFormed (by simp [Value.Keyed, Value.MembersKeyed, Value.ItemsKeyed])) (by decide)
    (Tree.keyed_ofValue _ (by simp [Value.Keyed, Value.MembersKeyed, Value.ofString])), by decide +kernel⟩

end Reshape
