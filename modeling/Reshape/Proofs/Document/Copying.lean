/-
  Reshape.Proofs.Document.Copying — copies are faithful, and touch nothing else.

  A node of one document is copied into another with all that is below it. Told step by step
  (`copyWithin`), a placeholder is stored for the node, then its parts are copied behind it, each by
  the same steps, and last the placeholder takes the content, whose parts are now known by their
  handles. What has been stored when a part is copied is not looked at, so that the steps come to
  storing the tree that the node reads as (`copyWithin_eq`).

  What is stored is the image of the nodes below the node, under a pairing that follows the same way
  down on both sides (`SameWay`). The document that receives the copy hangs nothing of its own below
  it, and nothing of the copy below anything of its own.

  - `under_nextId_iff`: the nodes of a copy are those that were stored for it.
  - `SameWay.exists_pairing`, `SameWay.right_unique`, `SameWay.under_iff`: the pairing.
  - `copies_faithful`: each node below the one that was copied has one copy, which holds the same,
    with the copies of its parts in their places.
-/

import Reshape.Proofs.Document.Editing
import Reshape.Proofs.Json.Parsing

namespace Reshape

open Relation (ReflTransGen TransGen)

/-! ## Node by node -/

section Threading

variable {α β σ : Type} (f : α → σ → β × σ)

/-- The parts exchanged one after the other, with a state that goes along. -/
def threadItems : List α → σ → List β × σ
  | [], s => ([], s)
  | a :: rest, s => ((f a s).1 :: (threadItems rest (f a s).2).1, (threadItems rest (f a s).2).2)

def threadMembers : List (Member α) → σ → List (Member β) × σ
  | [], s => ([], s)
  | m :: rest, s =>
    (⟨m.key, m.position, (f m.value s).1⟩ :: (threadMembers rest (f m.value s).2).1,
      (threadMembers rest (f m.value s).2).2)

def Content.thread : Content α → σ → Content β × σ
  | .scalar x, s => (.scalar x, s)
  | .array items, s => (.array (threadItems f items s).1, (threadItems f items s).2)
  | .object members, s => (.object (threadMembers f members s).1, (threadMembers f members s).2)

end Threading

/-- Contents that come to the same once their parts are read are the same but for their parts. -/
theorem Content.eq_map {α β γ : Type} {c : Content α} {c' : Content β} {f : α → γ} {g : β → γ} {t : α → β}
    (h : c'.map g = c.map f)
    (ht : ∀ (i : Nat) x y, c.parts[i]? = some x → c'.parts[i]? = some y → y = t x) : c' = c.map t := by
  cases c with
  | scalar s => cases c' <;> simp_all [Content.map]
  | array items =>
    cases c' with
    | array items' =>
      have hlength : items'.length = items.length := by simpa using congrArg List.length (Content.array.inj h)
      refine congrArg Content.array (List.ext_getElem (by simp [hlength]) fun i hi hi' => ?_)
      rw [List.getElem_map]
      exact ht i _ _ (List.getElem?_eq_getElem (hlength ▸ hi)) (List.getElem?_eq_getElem hi)
    | _ => cases h
  | object members =>
    cases c' with
    | object members' =>
      have hmembers := Content.object.inj h
      have hlength : members'.length = members.length := by simpa using congrArg List.length hmembers
      refine congrArg Content.object (List.ext_getElem (by simp [hlength]) fun i hi hi' => ?_)
      have hi'' : i < members.length := hlength ▸ hi
      have hsame := congrArg (·[i]?) hmembers
      simp only [List.getElem?_map, List.getElem?_eq_getElem hi, List.getElem?_eq_getElem hi'', Option.map_some,
        Option.some.injEq, Member.mk.injEq] at hsame
      have hvalue : members'[i].value = t members[i].value :=
        ht i _ _ (by simp [Content.parts, hi'']) (by simp [Content.parts, hi])
      rw [List.getElem_map, ← hvalue, ← hsame.1, ← hsame.2.1]
    | _ => cases h

namespace Document

/-- Copies a node of `o` and what is below it, down to `levels` levels, to the end of a document: a placeholder
    first, then the parts, and then the placeholder takes the content. -/
def copyWithin (o : Document) : Nat → NodeId → Option NodeId → Document → Document
  | 0, id, parent, d => d.store [⟨.scalar .null, parent, o.position id⟩]
  | levels + 1, id, parent, d =>
    let copy := d.nextId
    let copied := (o.content id).thread (fun part grown => (grown.nextId, o.copyWithin levels part (some copy) grown))
      (d.store [⟨.scalar .null, parent, o.position id⟩])
    copied.2.withContent copy copied.1

theorem store_nil (d : Document) : d.store [] = d := by simp [store]

theorem store_append (d : Document) (nodes more : List Node) :
    (d.store nodes).store more = d.store (nodes ++ more) := by
  simp [store]

/-- The first of the nodes that are stored, changed afterwards, might have been stored as it is then. -/
theorem store_modify (d : Document) (n : Node) (more : List Node) (f : Node → Node) :
    (d.store (n :: more)).modify d.nextId f = d.store (f n :: more) := by
  have hnodes : (d.nodes ++ (n :: more).toArray).modify d.nodes.size f = d.nodes ++ (f n :: more).toArray := by
    refine Array.ext_getElem? fun i => ?_
    rw [Array.getElem?_modify]
    rcases Nat.lt_trichotomy i d.nodes.size with hlt | rfl | hgt
    · rw [if_neg (Nat.ne_of_gt hlt), Array.getElem?_append_left hlt, Array.getElem?_append_left hlt]
    · simp
    · have hle : d.nodes.size ≤ i := Nat.le_of_lt hgt
      obtain ⟨k, hk⟩ : ∃ k, i - d.nodes.size = k + 1 := ⟨i - d.nodes.size - 1, by omega⟩
      rw [if_neg (Nat.ne_of_lt hgt), Array.getElem?_append_right hle, Array.getElem?_append_right hle, hk]
      simp
  exact congrArg (Document.mk · d.root) hnodes

/-- A placeholder that takes a content once its parts are stored might have had it from the start. -/
theorem store_withContent (d : Document) (n : Node) (more : List Node) (c : Content NodeId) :
    (d.store (n :: more)).withContent d.nextId c = d.store ({ n with content := c } :: more) :=
  store_modify d n more _

section Parts

variable {f : NodeId → Document → NodeId × Document} {t : NodeId → Tree} {owner : NodeId}
  (hf : ∀ part d, f part d = (d.nextId, d.add (t part) (some owner)))
include hf

/-- If each part is copied by storing its tree, parts are copied by storing their trees one behind the other. -/
theorem threadItems_copied (items : List NodeId) (d : Document) :
    threadItems f items d =
      (itemIds d.nodes.size (items.map t), d.store (itemNodes owner d.nodes.size (items.map t))) := by
  induction items generalizing d with
  | nil => simp [threadItems, itemIds, itemNodes, store_nil]
  | cons part rest ih =>
    simp only [threadItems, hf, ih, List.map_cons, itemIds, itemNodes, size_add]
    simp only [add, store_append, nextId]

theorem threadMembers_copied (members : List (Member NodeId)) (d : Document) :
    threadMembers f members d =
      (memberIds d.nodes.size (members.map fun m => ⟨m.key, m.position, t m.value⟩),
        d.store (memberNodes owner d.nodes.size (members.map fun m => ⟨m.key, m.position, t m.value⟩))) := by
  induction members generalizing d with
  | nil => simp [threadMembers, memberIds, memberNodes, store_nil]
  | cons m rest ih =>
    simp only [threadMembers, hf, ih, List.map_cons, memberIds, memberNodes, size_add]
    simp only [add, store_append, nextId]

theorem thread_copied (c : Content NodeId) (d : Document) :
    c.thread f d = ((c.map t).ids d.nodes.size, d.store ((c.map t).nodes owner d.nodes.size)) := by
  cases c with
  | scalar s => simp [Content.thread, Content.map, Content.ids, Content.nodes, store_nil]
  | array items => simp [Content.thread, Content.map, Content.ids, Content.nodes, threadItems_copied hf]
  | object members => simp [Content.thread, Content.map, Content.ids, Content.nodes, threadMembers_copied hf]

end Parts

/-- To copy node by node is to store the tree that the node reads as. -/
theorem copyWithin_eq (o : Document) (levels : Nat) (id : NodeId) (parent : Option NodeId) (d : Document) :
    o.copyWithin levels id parent d = d.add (o.treeWithin levels id) parent := by
  induction levels generalizing id parent d with
  | zero => rfl
  | succ levels ih =>
    have hparts := @thread_copied (fun part grown => (grown.nextId, o.copyWithin levels part (some d.nextId) grown))
      (o.treeWithin levels) d.nextId fun part grown => by rw [ih]
    rw [copyWithin]
    simp only [hparts, store_append, size_store, List.length_singleton, List.singleton_append, store_withContent]
    rfl

/-! ## The nodes of a copy -/

/-- The nodes of a copy are those that were stored for it. -/
theorem WellFormed.under_nextId_iff {d : Document} (h : d.WellFormed) {t : Tree} (ht : t.Keyed) {x : NodeId} :
    (d.add t none).Under d.nextId x ↔ (d.add t none).Holds x ∧ ¬ d.Holds x := by
  have g := grafted_add d ht
  constructor
  · intro hu
    exact ⟨holds_of_under (holds_nextId_add d t none) hu, fun hh => (h.add_beside ht).not_under h hh hu⟩
  · rintro ⟨hh, hn⟩
    -- A node that is not the topmost one hangs in one that was stored before it.
    induction hi : x.index using Nat.strong_induction_on generalizing x with
    | h index ih =>
      obtain ⟨n, hn⟩ := g.exists_at hh hn
      rcases g.parent_cases hn with ⟨htop, -⟩ | ⟨above, m, hm, -, hlt, hparent⟩
      · rw [List.mem_singleton.mp htop]
        exact .refl
      · exact (ih above.index (hi ▸ hlt) (g.holds_at hm) (Grafted.not_holds_at hm) rfl).head hparent

/-! ## A node and its copy -/

/-- Nodes of two documents that are reached on the same way down, from `top` and from `top'`. -/
inductive SameWay (o d : Document) (top top' : NodeId) : NodeId → NodeId → Prop
  | here : SameWay o d top top' top top'
  | part {a b x y : NodeId} (i : Nat) : SameWay o d top top' a b → (o.parts a)[i]? = some x →
      (d.parts b)[i]? = some y → SameWay o d top top' x y

namespace SameWay

variable {o d : Document} {top top' a b : NodeId}

theorem symm (h : SameWay o d top top' a b) : SameWay d o top' top b a := by
  induction h with
  | here => exact .here
  | part i _ hx hy ih => exact .part i ih hy hx

theorem under (ho : o.Linked) (h : SameWay o d top top' a b) : o.Under top a := by
  induction h with
  | here => exact .refl
  | part i _ hx _ ih => exact ih.head (ho.parent_iff.mpr (List.mem_of_getElem? hx))

/-- The way down to a node is its own. -/
theorem right_unique (ho : o.Linked) (h : SameWay o d top top' a b) {b' : NodeId}
    (h' : SameWay o d top top' a b') : b = b' := by
  -- No way leads from a node to itself, nor from two nodes, or two places in one, to the same node.
  induction h generalizing b' with
  | here =>
    cases h' with
    | here => rfl
    | part i hab hx _ => exact absurd (hab.under ho) (ho.not_under_part (List.mem_of_getElem? hx))
  | @part a b x y i hab hx hy ih =>
    have hp := ho.parent_iff.mpr (List.mem_of_getElem? hx)
    cases h' with
    | here => exact absurd (hab.under ho) (ho.not_under_part (List.mem_of_getElem? hx))
    | @part a' c _ _ j hac hx' hy' =>
      obtain rfl : a = a' := Option.some.inj (hp.symm.trans (ho.parent_iff.mpr (List.mem_of_getElem? hx')))
      obtain rfl := ih hac
      have hi : i < (o.parts a).length := (List.getElem?_eq_some_iff.mp hx).1
      obtain rfl : i = j := (List.getElem?_inj hi (ho.parts_nodup a)).mp (hx.trans hx'.symm)
      exact Option.some.inj (hy.symm.trans hy')

section Trees

variable (ho : o.Linked) (hd : d.Linked) (ht : d.tree top' = o.tree top)
include ho hd ht

/-- Nodes reached on the same way down read the same if those at the top do. -/
theorem tree_eq (h : SameWay o d top top' a b) : d.tree b = o.tree a := by
  induction h with
  | here => exact ht
  | @part a b x y i _ hx hy ih =>
    rw [hd.tree_eq, ho.tree_eq] at ih
    have hparts := congrArg (fun t => t.content.parts[i]?) ih
    simp only [Content.parts_map, List.getElem?_map] at hparts
    rw [show (d.content b).parts[i]? = some y from hy, show (o.content a).parts[i]? = some x from hx] at hparts
    exact Option.some.inj hparts

theorem exists_right (hu : o.Under top a) : ∃ b, SameWay o d top top' a b := by
  induction hu using Relation.ReflTransGen.head_induction_on with
  | refl => exact ⟨top', .here⟩
  | @head x p hxp _ ih =>
    obtain ⟨q, hq⟩ := ih
    obtain ⟨i, hi, hx⟩ := List.getElem_of_mem (ho.parent_iff.mp hxp)
    have htree := hq.tree_eq ho hd ht
    rw [hd.tree_eq, ho.tree_eq] at htree
    have hlength := congrArg (fun t => t.content.parts.length) htree
    simp only [Content.parts_map, List.length_map] at hlength
    have hi' : i < (d.parts q).length := by
      rw [parts, hlength]
      exact hi
    exact ⟨(d.parts q)[i], .part i hq (List.getElem?_eq_some_iff.mpr ⟨hi, hx⟩) (List.getElem?_eq_getElem hi')⟩

/-- Each node below the top on one side has one on the other side to go with it. -/
theorem exists_pairing : ∃ twin : NodeId → NodeId, ∀ x, o.Under top x → SameWay o d top top' x (twin x) := by
  have hpaired : ∀ x, ∃ y, o.Under top x → SameWay o d top top' x y := fun x => by
    by_cases hx : o.Under top x
    · obtain ⟨y, hy⟩ := exists_right ho hd ht hx
      exact ⟨y, fun _ => hy⟩
    · exact ⟨x, fun h => absurd h hx⟩
  choose twin htwin using hpaired
  exact ⟨twin, htwin⟩

/-- What lies below the top on the other side is what the nodes on this side are paired with. -/
theorem under_iff {twin : NodeId → NodeId} (htwin : ∀ x, o.Under top x → SameWay o d top top' x (twin x))
    {z : NodeId} : d.Under top' z ↔ ∃ x, o.Under top x ∧ twin x = z := by
  constructor
  · intro hz
    obtain ⟨x, hx⟩ := exists_right hd ho ht.symm hz
    have hunder := hx.symm.under ho
    exact ⟨x, hunder, (htwin x hunder).right_unique ho hx.symm⟩
  · rintro ⟨x, hx, rfl⟩
    exact (htwin x hx).symm.under hd

/-- Nodes reached on the same way down stand at the same position and hold the same, their parts being paired in
    their places. -/
theorem content_eq (h : SameWay o d top top' a b) {twin : NodeId → NodeId}
    (htwin : ∀ x, o.Under top x → SameWay o d top top' x (twin x)) :
    d.content b = (o.content a).map twin ∧ d.position b = o.position a := by
  have htree := h.tree_eq ho hd ht
  rw [hd.tree_eq, ho.tree_eq] at htree
  refine ⟨Content.eq_map (congrArg Tree.content htree) fun i x y hx hy => ?_, congrArg Tree.position htree⟩
  have hxy : SameWay o d top top' x y := .part i h hx hy
  exact hxy.right_unique ho (htwin x (hxy.under ho))

end Trees

end SameWay

/-! ## Copies -/

/-- A document that is made of a copy of a node reads as the node. -/
theorem tree_subtree {o : Document} (ho : o.Linked) (id : NodeId) :
    (o.subtree id).tree (o.subtree id).root = o.tree id := by
  rw [subtree, ofTree_eq_add]
  exact blank_linked.tree_nextId_add (ho.tree_keyed id)

/-- Copying a node of one document into another, step by step, stores the nodes of the copy and changes nothing else.
    The copy hangs nowhere and has the value of the node. Each node that lies below the one that was copied has one
    node of the copy for itself, at the same position, which holds the same under the same keys at the same
    positions, with the nodes for its parts in their places; and all that has been stored are these. A copy that
    is a document of its own is well-formed and reads as the node, positions included. A value that is
    stored as a document is the value of that document. -/
theorem copies_faithful {d o : Document} (hd : d.WellFormed) (ho : o.WellFormed) (id : NodeId) :
    let after := d.add (o.tree id) none
    o.copyWithin o.nodes.size id none d = after ∧
    (after.WellFormed ∧ after.root = d.root ∧ ∀ x, d.Holds x → after.node x = d.node x) ∧
    (¬ d.Holds d.nextId ∧ after.Holds d.nextId ∧ after.parent d.nextId = none ∧ after.value d.nextId = o.value id) ∧
    (∃ twin : NodeId → NodeId, twin id = d.nextId ∧
      (∀ x, o.Under id x → after.content (twin x) = (o.content x).map twin ∧
        after.position (twin x) = o.position x) ∧
      (∀ x y, o.Under id x → o.Under id y → twin x = twin y → x = y) ∧
      ∀ z, (after.Holds z ∧ ¬ d.Holds z) ↔ ∃ x, o.Under id x ∧ twin x = z) ∧
    ((o.subtree id).WellFormed ∧ (o.subtree id).rootValue = o.value id ∧
      (o.subtree id).tree (o.subtree id).root = o.tree id) ∧
    ∀ v : Value, v.Keyed → (ofValue v).rootValue = v := by
  intro after
  have hkeyed := ho.tree_keyed id
  have hafter : after.WellFormed := hd.add hkeyed
  have htree : after.tree d.nextId = o.tree id := hd.tree_nextId_add hkeyed
  obtain ⟨twin, htwin⟩ := SameWay.exists_pairing ho.toLinked hafter.toLinked htree
  refine ⟨copyWithin_eq .., ⟨hafter, rfl, fun x hx => node_add_held _ _ hx⟩,
    ⟨not_holds_nextId d, holds_nextId_add .., parent_nextId_add d hkeyed none, congrArg Tree.value htree⟩,
    ⟨twin, ?_, fun x hx => ?_, fun x y hx hy e => ?_, fun z => ?_⟩, ⟨ofTree_wellFormed hkeyed, ?_, ?_⟩, fun v hv => ?_⟩
  · exact (htwin id .refl).right_unique ho.toLinked .here
  · exact (htwin x hx).content_eq ho.toLinked hafter.toLinked htree htwin
  · exact (htwin x hx).symm.right_unique hafter.toLinked (e ▸ (htwin y hy).symm)
  · rw [← hd.under_nextId_iff hkeyed]
    exact SameWay.under_iff ho.toLinked hafter.toLinked htree htwin
  · exact congrArg Tree.value (tree_subtree ho.toLinked id)
  · exact tree_subtree ho.toLinked id
  · exact (rootValue_ofTree (Tree.keyed_ofValue v hv)).trans (Tree.value_ofValue v)

def shelf : Document :=
  ofTree ⟨some ⟨1, 1⟩, .object [⟨"a", some ⟨1, 2⟩, ⟨some ⟨1, 7⟩, .array [⟨some ⟨1, 8⟩, .scalar (.bool true)⟩]⟩⟩]⟩

theorem shelf_wellFormed : shelf.WellFormed :=
  ofTree_wellFormed (by simp [Tree.Keyed, Tree.MembersKeyed, Tree.ItemsKeyed])

/-- The array is copied next to an object without properties, which stays as it is. -/
theorem array_copied_aside :
    let d := ofValue (.object [])
    let after := d.add (shelf.tree ⟨1⟩) none
    shelf.copyWithin 3 ⟨1⟩ none d = after ∧ after.WellFormed ∧ after.node ⟨0⟩ = d.node ⟨0⟩ ∧
    after.value ⟨1⟩ = .array [.scalar (.bool true)] ∧
    (∃ twin : NodeId → NodeId, twin ⟨1⟩ = ⟨1⟩ ∧ after.content ⟨1⟩ = .array [twin ⟨2⟩] ∧
      after.position ⟨1⟩ = some ⟨1, 7⟩ ∧ after.position (twin ⟨2⟩) = some ⟨1, 8⟩) ∧
    (shelf.subtree ⟨1⟩).tree ⟨0⟩ = ⟨some ⟨1, 7⟩, .array [⟨some ⟨1, 8⟩, .scalar (.bool true)⟩]⟩ := by
  intro d after
  have hd : d.WellFormed := ofValue_wellFormed (by simp [Value.Keyed, Value.MembersKeyed])
  obtain ⟨hsteps, ⟨hafter, -, hkept⟩, ⟨-, -, -, hvalue⟩, ⟨twin, htop, htwin, -, -⟩, ⟨-, -, hsubtree⟩, -⟩ :=
    copies_faithful hd shelf_wellFormed ⟨1⟩
  have hitem : shelf.Under ⟨1⟩ ⟨2⟩ := .single rfl
  have harray := htwin ⟨1⟩ .refl
  rw [htop] at harray
  exact ⟨hsteps, hafter, hkept ⟨0⟩ (by decide), hvalue.trans rfl, ⟨twin, htop, harray.1, harray.2,
    (htwin ⟨2⟩ hitem).2⟩, hsubtree.trans rfl⟩

end Document

end Reshape
