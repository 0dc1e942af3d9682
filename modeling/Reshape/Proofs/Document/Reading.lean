/-
  Reshape.Proofs.Document.Reading — the tree that a node of a linked document reads as.

  Reading goes down a bounded number of levels. In a linked document no node is below
  itself, so the nodes under a node are fewer with each level and the bound is never met:
  a node reads as its content with each part read in its place (`tree_eq`).

  - `Linked.parts_induction`: what holds of a node whenever it holds of its parts holds of
    every node.
  - `tree_congr`: a node reads the same in two documents that agree on what is under it.
  - `tree_laid`: a tree that has been laid out reads as itself.
-/

import Mathlib.Data.Finset.Card
import Reshape.Proofs.Document.Layout

namespace Reshape

theorem Content.map_congr {α β : Type} {c : Content α} {f g : α → β}
    (h : ∀ part ∈ c.parts, f part = g part) : c.map f = c.map g := by
  cases c with
  | scalar s => rfl
  | array items => exact congrArg Content.array (List.map_congr_left h)
  | object members =>
    refine congrArg Content.object (List.map_congr_left fun m hm => ?_)
    rw [h m.value (List.mem_map_of_mem hm)]

@[simp] theorem Content.parts_map {α β : Type} (c : Content α) (f : α → β) :
    (c.map f).parts = c.parts.map f := by
  cases c <;> simp [Content.map, Content.parts]

@[simp] theorem Content.keys_map {α β : Type} (c : Content α) (f : α → β) :
    (c.map f).members.map Member.key = c.members.map Member.key := by
  cases c <;> simp [Content.map, Content.members]

@[simp] theorem Content.isObject_map {α β : Type} (c : Content α) (f : α → β) :
    (c.map f).isObject = c.isObject := by
  cases c <;> rfl

@[simp] theorem Content.isArray_map {α β : Type} (c : Content α) (f : α → β) :
    (c.map f).isArray = c.isArray := by
  cases c <;> rfl

namespace Document

/-! ## How much is under a node -/

open Classical in
noncomputable def reach (d : Document) (id : NodeId) : Finset Nat :=
  (Finset.range d.nodes.size).filter fun i => d.Under id ⟨i⟩

theorem mem_reach {d : Document} {id : NodeId} {i : Nat} :
    i ∈ d.reach id ↔ d.Holds ⟨i⟩ ∧ d.Under id ⟨i⟩ := by
  simp [reach, Holds]

theorem card_reach_le (d : Document) (id : NodeId) : (d.reach id).card ≤ d.nodes.size := by
  have hsub : d.reach id ⊆ Finset.range d.nodes.size := fun _ hi => Finset.mem_range.mpr (mem_reach.mp hi).1
  calc (d.reach id).card ≤ (Finset.range d.nodes.size).card := Finset.card_le_card hsub
    _ = d.nodes.size := Finset.card_range _

theorem card_reach_pos {d : Document} {id : NodeId} (h : d.Holds id) : 0 < (d.reach id).card :=
  Finset.card_pos.mpr ⟨id.index, mem_reach.mpr ⟨h, .refl⟩⟩

/-- There is less under a part than under the whole. -/
theorem Linked.card_reach_lt {d : Document} (h : d.Linked) {id part : NodeId} (hp : part ∈ d.parts id) :
    (d.reach part).card < (d.reach id).card := by
  refine Finset.card_lt_card ⟨fun i hi => ?_, fun hsub => ?_⟩
  · obtain ⟨hh, hu⟩ := mem_reach.mp hi
    exact mem_reach.mpr ⟨hh, hu.tail (h.parent_iff.mpr hp)⟩
  · have : id.index ∈ d.reach part := hsub (mem_reach.mpr ⟨holds_of_mem_parts hp, .refl⟩)
    exact h.not_under_part hp (mem_reach.mp this).2

/-- What holds of a node whenever it holds of its parts holds of every node. -/
theorem Linked.parts_induction {d : Document} (h : d.Linked) {motive : NodeId → Prop}
    (step : ∀ id, (∀ part ∈ d.parts id, motive part) → motive id) (id : NodeId) : motive id :=
  step id fun part _ => h.parts_induction step part
termination_by (d.reach id).card
decreasing_by exact h.card_reach_lt ‹_›

/-! ## Reading -/

theorem content_of_not_holds {d : Document} {id : NodeId} (h : ¬ d.Holds id) :
    d.content id = .scalar .null := by
  simp [content, node_of_not_holds h, default]

/-- Levels beyond what is under the node add nothing. -/
theorem Linked.treeWithin_stable {d : Document} (h : d.Linked) (n m : Nat) (id : NodeId)
    (hn : (d.reach id).card ≤ n) (hm : (d.reach id).card ≤ m) : d.treeWithin n id = d.treeWithin m id := by
  induction n generalizing m id with
  | zero =>
    have hh : ¬ d.Holds id := fun hh => by have := card_reach_pos hh; omega
    cases m <;> simp [treeWithin, content_of_not_holds hh, Content.map]
  | succ n ih =>
    cases m with
    | zero =>
      have hh : ¬ d.Holds id := fun hh => by have := card_reach_pos hh; omega
      simp [treeWithin, content_of_not_holds hh, Content.map]
    | succ m =>
      simp only [treeWithin]
      congr 1
      refine Content.map_congr fun part hp => ih m part ?_ ?_
      · have := h.card_reach_lt hp; omega
      · have := h.card_reach_lt hp; omega

/-- A node reads as its content with each part read in its place. -/
theorem Linked.tree_eq {d : Document} (h : d.Linked) (id : NodeId) :
    d.tree id = ⟨d.position id, (d.content id).map d.tree⟩ := by
  have hle := card_reach_le d id
  exact h.treeWithin_stable d.nodes.size (d.nodes.size + 1) id hle (by omega)

theorem Linked.tree_members {d : Document} (h : d.Linked) (id : NodeId) :
    (d.tree id).members = (d.members id).map fun m => ⟨m.key, m.position, d.tree m.value⟩ := by
  rw [h.tree_eq]
  simp only [Tree.members, members]
  cases d.content id <;> simp [Content.map, Content.members]

theorem Linked.tree_items {d : Document} (h : d.Linked) (id : NodeId) :
    (d.tree id).items = (d.items id).map d.tree := by
  rw [h.tree_eq]
  simp only [Tree.items, items]
  cases d.content id <;> simp [Content.map, Content.items]

theorem Linked.tree_isObject {d : Document} (h : d.Linked) (id : NodeId) :
    (d.tree id).isObject = d.isObject id := by
  rw [h.tree_eq]
  simp [Tree.isObject, isObject]

theorem Linked.tree_isArray {d : Document} (h : d.Linked) (id : NodeId) :
    (d.tree id).isArray = d.isArray id := by
  rw [h.tree_eq]
  simp [Tree.isArray, isArray]

/-- What a linked document reads as has unique keys. -/
theorem Linked.tree_keyed {d : Document} (h : d.Linked) (id : NodeId) : (d.tree id).Keyed := by
  induction id using h.parts_induction with
  | step id ih =>
    rw [h.tree_eq, Tree.keyed_iff]
    refine ⟨?_, fun part hp => ?_⟩
    · simpa [Tree.members, members] using h.keys_nodup id
    · rw [Content.parts_map] at hp
      obtain ⟨p, hmem, rfl⟩ := List.mem_map.mp hp
      exact ih p hmem

/-- A node reads the same where everything under it is the same. -/
theorem tree_congr {d d' : Document} (h : d.Linked) (h' : d'.Linked) (id : NodeId)
    (same : ∀ x, d.Under id x → d'.content x = d.content x ∧ d'.position x = d.position x) :
    d'.tree id = d.tree id := by
  induction id using h.parts_induction with
  | step id ih =>
    obtain ⟨hc, hp⟩ := same id .refl
    rw [h.tree_eq, h'.tree_eq, hc, hp]
    congr 1
    exact Content.map_congr fun part hpart =>
      ih part hpart fun x hx => same x (hx.tail (h.parent_iff.mpr hpart))

/-! ## Trees that have been laid out -/

mutual

/-- A tree that has been laid out reads as itself. -/
theorem tree_laid {d : Document} (h : d.Linked) (parent : Option NodeId) (base : Nat) (t : Tree)
    (hl : ∀ id n, laidAt? base (t.nodes parent base) id = some n → d.node id = n) : d.tree ⟨base⟩ = t := by
  match t with
  | ⟨position, content⟩ =>
    have hroot : d.node ⟨base⟩ = ⟨content.ids (base + 1), parent, position⟩ :=
      hl _ _ (by simp [Tree.nodes, laidAt?_cons])
    have hrest : ∀ id n, laidAt? (base + 1) (content.nodes ⟨base⟩ (base + 1)) id = some n →
        d.node id = n := by
      intro id n hn
      refine hl id n ?_
      have := (laidAt?_bounds hn).1
      rw [Tree.nodes, laidAt?_cons, if_neg fun e => by subst e; simp only at this; omega]
      exact hn
    rw [h.tree_eq]
    simp only [Document.position, Document.content, hroot]
    congr 1
    match content with
    | .scalar s => rfl
    | .array items => exact congrArg Content.array (itemTrees_laid h ⟨base⟩ (base + 1) items hrest)
    | .object members => exact congrArg Content.object (memberTrees_laid h ⟨base⟩ (base + 1) members hrest)

theorem itemTrees_laid {d : Document} (h : d.Linked) (owner : NodeId) (base : Nat) (items : List Tree)
    (hl : ∀ id n, laidAt? base (itemNodes owner base items) id = some n → d.node id = n) :
    (itemIds base items).map d.tree = items := by
  match items with
  | [] => rfl
  | t :: rest =>
    have hfirst := tree_laid h (some owner) base t fun id n hn => hl id n (Laid.at_append_left _ _ hn)
    have hmore := itemTrees_laid h owner (base + t.size) rest fun id n hn =>
      hl id n (Laid.at_append_right _ _ (by rw [length_nodes]; exact hn))
    simp [itemIds, hfirst, hmore]

theorem memberTrees_laid {d : Document} (h : d.Linked) (owner : NodeId) (base : Nat)
    (members : List (Member Tree))
    (hl : ∀ id n, laidAt? base (memberNodes owner base members) id = some n → d.node id = n) :
    (memberIds base members).map (fun m => (⟨m.key, m.position, d.tree m.value⟩ : Member Tree)) =
      members := by
  match members with
  | [] => rfl
  | ⟨key, position, t⟩ :: rest =>
    have hfirst := tree_laid h (some owner) base t fun id n hn => hl id n (Laid.at_append_left _ _ hn)
    have hmore := memberTrees_laid h owner (base + t.size) rest fun id n hn =>
      hl id n (Laid.at_append_right _ _ (by rw [length_nodes]; exact hn))
    simp [memberIds, hfirst, hmore]

end

/-- The parts of a tree that have been laid out read as themselves. -/
theorem contentTrees_laid {d : Document} (h : d.Linked) (owner : NodeId) (base : Nat) (c : Content Tree)
    (hl : ∀ id n, laidAt? base (c.nodes owner base) id = some n → d.node id = n) :
    (c.ids base).map d.tree = c := by
  cases c with
  | scalar s => rfl
  | array items => exact congrArg Content.array (itemTrees_laid h owner base items hl)
  | object members => exact congrArg Content.object (memberTrees_laid h owner base members hl)

/-- A copy reads as what was copied. -/
theorem Linked.tree_nextId_add {d : Document} (h : d.Linked) {t : Tree} (ht : t.Keyed) :
    (d.add t none).tree d.nextId = t :=
  tree_laid (h.add ht) none d.nodes.size t fun _ _ hn => node_store_laid hn

end Document

end Reshape
