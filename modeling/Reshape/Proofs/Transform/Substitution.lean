/-
  Reshape.Proofs.Transform.Substitution — replacement by a path puts a value in the place of all matches at once.

  The matches of a path are overwritten one after the other. A match that is overwritten
  loses what was below it, and matches may be among that: they are overwritten all the same,
  but hang nowhere near the object any more. A match that is overwritten before the one it is
  below, or a second time, has changed in vain. What makes the order irrelevant is that all
  nodes of a value that has been put in were stored for it, so no match is ever among them
  (`Overwritten.fresh`): once a match reads as the value, it goes on to (`Overwritten.reads`).

  - `Overwritten.perform`: one more match is overwritten.
  - `Replacement.exec_replaceAll`: where neither the object itself nor the root is found,
    nothing fails or halts.
  - `Replacement.act_substitutes`: replacement by a path, from its operand on.
-/

import Reshape.Proofs.Transform.Matches
import Reshape.Proofs.Transform.Operands

namespace Reshape

open Relation (ReflTransGen)

namespace Document

variable {d d' : Document} {t : Tree} {node top id x : NodeId} {done found : List NodeId}

/-! ## Nodes overwritten in a row -/

/-- What is above a node in use is in use. -/
theorem Linked.holds_of_above (h : d.Linked) (hh : d.Holds id) (hu : d.Under top id) : d.Holds top := by
  rcases ReflTransGen.cases_tail hu with rfl | ⟨part, -, hp⟩
  · exact hh
  · exact h.holds_owner hp

/-- What is under a node, and not the node itself, is under a part of it. -/
theorem Linked.under_part (h : d.Linked) (hu : d.Under top id) (hne : id ≠ top) :
    ∃ part ∈ d.parts top, d.Under part id := by
  rcases ReflTransGen.cases_tail hu with e | ⟨part, hpu, hp⟩
  · exact absurd e.symm hne
  · exact ⟨part, h.parent_iff.mp hp, hpu⟩

structure Overwritten (d : Document) (t : Tree) (done : List NodeId) (d' : Document) : Prop extends Grown d d' where
  wellFormed : d'.WellFormed
  others : ∀ {id}, d.Holds id → id ∉ done → d'.content id = d.content id ∧ d'.position id = d.position id
  reads : ∀ x ∈ done, d.Holds x ∧ d'.tree x = t
  fresh : ∀ x ∈ done, ∀ part ∈ d'.parts x, ¬ d.Holds part

namespace Overwritten

theorem refl (h : d.WellFormed) (t : Tree) : Overwritten d t [] d where
  toGrown := .refl d
  wellFormed := h
  others _ _ := ⟨rfl, rfl⟩
  reads _ hx := absurd hx List.not_mem_nil
  fresh _ hx := absurd hx List.not_mem_nil

/-- Nothing else that was there is under a node that has been overwritten. -/
theorem not_under (ho : Overwritten d t done d') (h : d.Linked) (hh : d.Holds id) (hx : x ∈ done) (hne : id ≠ x) :
    ¬ d'.Under x id := by
  intro hu
  obtain ⟨part, hpart, hup⟩ := ho.wellFormed.under_part hu hne
  exact ho.fresh x hx part hpart (h.holds_of_above hh (ho.under h hh hup))

/-- One more node that was there is overwritten. -/
theorem perform (ho : Overwritten d t done d') (h : d.Linked) (ht : t.Keyed) (hx : d.Holds x) :
    Overwritten d t (done ++ [x]) (d'.perform (.overwrite x t)) := by
  have hx' : d'.Holds x := ho.holds hx
  have he : Edited d' (d'.replace x t) x := ho.wellFormed.overwrite_edited hx' ht
  have hdone : ∀ {y}, y ∈ done ++ [x] → y ≠ x → y ∈ done := fun hy hne =>
    (List.mem_append.mp hy).resolve_right fun e => hne (List.mem_singleton.mp e)
  refine ⟨ho.toGrown.trans he.grown, he.wellFormed, ?others, ?reads, ?fresh⟩
  case others =>
    intro id hh hid
    rw [List.mem_append, List.mem_singleton, not_or] at hid
    obtain ⟨hcontent, hposition⟩ := he.elsewhere (ho.holds hh) hid.2
    obtain ⟨hcontent', hposition'⟩ := ho.others hh hid.1
    exact ⟨hcontent.trans hcontent', hposition.trans hposition'⟩
  case reads =>
    intro y hy
    by_cases e : y = x
    · rw [e]
      exact ⟨hx, tree_overwrite ho.wellFormed hx' ht⟩
    · -- The node is not among what was stored for another one, so that still reads as it did.
      have hy := hdone hy e
      obtain ⟨hyheld, hyreads⟩ := ho.reads y hy
      have hapart : ¬ d'.Under y x := ho.not_under h hx hy fun e' => e e'.symm
      exact ⟨hyheld, (he.tree_eq ho.wellFormed.toLinked (ho.holds hyheld) hapart).trans hyreads⟩
  case fresh =>
    intro y hy part hpart hheld
    by_cases e : y = x
    · -- The parts that it had before hang nowhere now.
      rw [e] at hpart
      have hparent := parent_replace (t := t) hx' (ho.holds hheld)
      rw [he.wellFormed.parent_iff.mpr hpart] at hparent
      split at hparent
      · cases hparent
      · rename_i hnot
        exact hnot (ho.wellFormed.parent_iff.mp hparent.symm)
    · have hy := hdone hy e
      have hparts := parts_eq_of_content (he.elsewhere (ho.holds (ho.reads y hy).1) e).1
      exact ho.fresh y hy part (hparts ▸ hpart) hheld

end Overwritten

theorem WellFormed.overwriteAll (h : d.WellFormed) (ht : t.Keyed) (hf : ∀ x ∈ found, d.Holds x) :
    Overwritten d t found (d.performAll (found.map (.overwrite · t))) := by
  induction found using List.reverseRecOn with
  | nil => exact .refl h t
  | append_singleton before x ih =>
    have hbefore := ih fun y hy => hf y (List.mem_append_left _ hy)
    rw [performAll, List.map_append, List.foldl_append]
    exact hbefore.perform h.toLinked ht (hf x (List.mem_append_right _ List.mem_cons_self))

namespace Overwritten

/-- A node that has not been overwritten itself reads as it did, with the tree where nodes have been. -/
theorem value (ho : Overwritten d t done d') (h : d.Linked) (hn : d.Holds node) (hself : node ∉ done) :
    d'.value node = (d.value node).exchange (d.matched node done) (some t.value) := by
  have hread : ∀ x, (if x ∈ done then some t.value else some (d'.value x)) = some (d'.value x) := by
    intro x
    split
    · rename_i hx
      rw [Document.value, (ho.reads x hx).2]
    · rfl
  apply h.value_exchange (P := fun y => d.Holds y ∧ y ∉ done) _ _ ⟨hn, hself⟩
  · exact fun y _ x hx hnot => ⟨h.parts_held hx, hnot⟩
  · intro y hy
    rw [ho.wellFormed.value_eq, (ho.others hy.1 hy.2).1, Content.filterMap_eq_map fun x _ => hread x]

/-- If all that has been overwritten was below a node, nothing has changed outside. -/
theorem keptOutside (ho : Overwritten d t done d') (h : d.Linked) (hn : d.Holds node)
    (hb : ∀ x ∈ done, d.Below node x) :
    KeptOutside d node d' :=
  ho.toGrown.keptOutside h ho.wellFormed.toLinked hn fun hout =>
    ho.others hout.1 fun hx => hout.2 ((hb _ hx).under h)

end Overwritten

end Document

namespace Replacement

open Document (KeptOutside nestedArrays nestedArrays_wellFormed nestedArrays_found)

variable {s : Session} {node : NodeId} {found : List NodeId} {operand : Tree} {target : Target}

/-! ## The verb -/

/-- Matches other than the object itself and the root are all overwritten. -/
theorem exec_replaceAll (hself : node ∉ found) (value : Tree) (hroot : s.document.root ∉ found) :
    (replaceAll node value found).exec s = (.ok .proceed, s.changedAll (found.map (.overwrite · value))) := by
  induction found generalizing s with
  | nil => rfl
  | cons x rest ih =>
    rw [List.mem_cons, not_or] at hself hroot
    have hover : (Run.overwrite x value value.position).exec s = (.ok (), s.changed (.overwrite x value)) := by
      rw [Run.exec_overwrite, if_neg]
      simp [Document.isRoot, Ne.symm hroot.1]
    have hrest : (s.changed (.overwrite x value)).document.root ∉ rest := by
      show (s.document.replace x value).root ∉ rest
      rw [Document.root_replace]
      exact hroot.2
    rw [replaceAll, Run.exec_bind_ok hover, if_neg fun e => hself.1 e.symm, ih hself.2 hrest]
    rfl

/-- Replacement by a path overwrites what is found, if neither the object itself nor the root is. -/
theorem exec_act (ho : operand.isObject = true) (htarget : Target.ofOperand? .replace operand = .ok (some target))
    (hfound : s.document.matches? node target.path = .ok found) (hself : node ∉ found)
    (hroot : s.document.root ∉ found) :
    (act node operand).exec s = (.ok .proceed, s.changedAll (found.map (.overwrite · target.value))) := by
  rw [act, ho, Bool.not_true, if_neg Bool.false_ne_true, Run.exec_bind_ok (Run.exec_demand_ok htarget s)]
  simp only
  rw [Run.exec_bind_ok (Run.exec_find_ok hfound target.pathPosition), exec_replaceAll hself target.value hroot]

/-- Replacement by a path that does not find the object itself proceeds without a warning. The object then reads
    as before, with the value at the outermost of the locations matched before anything was replaced; nothing
    outside has changed. -/
theorem act_substitutes (h : s.document.WellFormed) (hn : s.document.Holds node) (ho : operand.isObject = true)
    (hk : operand.Keyed) (htarget : Target.ofOperand? .replace operand = .ok (some target))
    (hfound : s.document.matches? node target.path = .ok found) (hself : node ∉ found) :
    ∃ s', (act node operand).exec s = (.ok .proceed, s') ∧
      s'.document.value node = (s.document.value node).exchange
        (Value.outermost (s.document.matched node found)) (some target.value.value) ∧
      s'.warnings = s.warnings ∧ KeptOutside s.document node s'.document := by
  have hbelow := h.matches?_below hfound hself
  have hroot : s.document.root ∉ found := fun hr => (hbelow _ hr).ne_root h rfl
  have hkeyed : target.value.Keyed := by
    obtain ⟨m, hm, hv⟩ := Target.ofOperand?_value htarget
    exact hv ▸ hk.member hm
  have hover := h.overwriteAll hkeyed fun x hx => (hbelow x hx).holds h.toLinked
  refine ⟨_, exec_act ho htarget hfound hself hroot, ?_⟩
  rw [Session.document_changedAll, Session.warnings_changedAll]
  refine ⟨?_, rfl, hover.keptOutside h.toLinked hn hbelow⟩
  rw [Value.exchange_outermost (Document.matched_nil hself)]
  exact hover.value h.toLinked hn hself

def itemsToObjects : Tree :=
  .ofValue (.object [("@jdt.path", .ofString "$..[1,0,1]"), ("@jdt.value", .object [("x", .array [])])])

/-- An array is replaced twice, and the item inside it in vain. -/
theorem itemsToObjects_substituted :
    ∃ s', (act ⟨1⟩ itemsToObjects).exec ⟨nestedArrays, []⟩ = (.ok .proceed, s') ∧
      s'.document.value ⟨1⟩ = .object [
        ("a", .array [.object [("x", .array [])], .object [("x", .array [])], .ofNat 9]), ("b", .ofNat 1)] ∧
      s'.warnings = [] ∧ KeptOutside nestedArrays ⟨1⟩ s'.document := by
  have hkeyed : itemsToObjects.Keyed := Tree.keyed_ofValue _ (by
    simp [Value.Keyed, Value.MembersKeyed, Value.ItemsKeyed, Value.ofString])
  obtain ⟨s', hexec, hvalue, hwarnings, hkept⟩ := act_substitutes (s := ⟨nestedArrays, []⟩)
    nestedArrays_wellFormed (show nestedArrays.Holds ⟨1⟩ by decide) rfl hkeyed rfl nestedArrays_found (by decide)
  exact ⟨s', hexec, hvalue.trans rfl, hwarnings, hkept⟩

end Replacement

end Reshape
