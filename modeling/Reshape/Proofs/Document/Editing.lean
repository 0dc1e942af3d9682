/-
  Reshape.Proofs.Document.Editing — what the changes to a document do to its well-formedness.

  Every change exchanges the parts of one node, its site, and lets go of some of them. What
  is stored anew hangs below the site or nowhere; nothing else hangs elsewhere than before,
  and no other node's content changes. `Edited` states this together with what it is for:
  the changed document is well-formed again.

  - A change and its site: `append_edited` and `insert_edited` at the node itself,
    `removeProperty_edited` at the object, `detach_edited` at the parent of the node. The last
    two come from `release_edited`, by which one part leaves its owner.
  - `WellFormed.setProperty`, `WellFormed.push`: a node that was free may be attached
    anywhere but to itself and below itself.
-/

import Reshape.Document.Edit
import Reshape.Proofs.Document.Reading

namespace Reshape.Document

open Relation (ReflTransGen TransGen)

/-! ## Single nodes -/

section Nodes

variable (d : Document) (id x : NodeId) (c : Content NodeId) (p : Option NodeId)

theorem node_modify (f : Node → Node) :
    (d.modify id f).node x = if x = id ∧ d.Holds id then f (d.node x) else d.node x := by
  unfold modify node Holds
  rw [Array.getElem?_modify]
  by_cases e : x = id
  · subst e
    by_cases h : x.index < d.nodes.size
    · simp [h]
    · simp [h]
  · have hne : ¬ id.index = x.index := fun h => e (NodeId.eq_iff.mpr h.symm)
    simp [e, hne]

@[simp] theorem size_modify (f : Node → Node) : (d.modify id f).nodes.size = d.nodes.size := by
  simp [modify]
@[simp] theorem root_modify (f : Node → Node) : (d.modify id f).root = d.root := rfl

@[simp] theorem size_withContent : (d.withContent id c).nodes.size = d.nodes.size := size_modify ..
@[simp] theorem size_withParent : (d.withParent id p).nodes.size = d.nodes.size := size_modify ..
@[simp] theorem holds_withContent : (d.withContent id c).Holds x ↔ d.Holds x := by simp [Holds]
@[simp] theorem holds_withParent : (d.withParent id p).Holds x ↔ d.Holds x := by simp [Holds]
@[simp] theorem root_withParent : (d.withParent id p).root = d.root := rfl

@[simp] theorem content_withContent :
    (d.withContent id c).content x = if x = id ∧ d.Holds id then c else d.content x := by
  unfold withContent content
  rw [node_modify]
  split <;> rfl

@[simp] theorem parent_withContent : (d.withContent id c).parent x = d.parent x := by
  unfold withContent parent
  rw [node_modify]
  split <;> rfl

@[simp] theorem position_withContent : (d.withContent id c).position x = d.position x := by
  unfold withContent position
  rw [node_modify]
  split <;> rfl

@[simp] theorem content_withParent : (d.withParent id p).content x = d.content x := by
  unfold withParent content
  rw [node_modify]
  split <;> rfl

@[simp] theorem parent_withParent :
    (d.withParent id p).parent x = if x = id ∧ d.Holds id then p else d.parent x := by
  unfold withParent parent
  rw [node_modify]
  split <;> rfl

@[simp] theorem position_withParent : (d.withParent id p).position x = d.position x := by
  unfold withParent position
  rw [node_modify]
  split <;> rfl

theorem size_orphan (ids : List NodeId) : (d.orphan ids).nodes.size = d.nodes.size := by
  unfold orphan
  induction ids generalizing d with
  | nil => rfl
  | cons a rest ih => simp [ih]

theorem root_orphan (ids : List NodeId) : (d.orphan ids).root = d.root := by
  unfold orphan
  induction ids generalizing d with
  | nil => rfl
  | cons a rest ih => simp [ih]

theorem content_orphan (ids : List NodeId) : (d.orphan ids).content x = d.content x := by
  unfold orphan
  induction ids generalizing d with
  | nil => rfl
  | cons a rest ih => simp [ih]

theorem position_orphan (ids : List NodeId) : (d.orphan ids).position x = d.position x := by
  unfold orphan
  induction ids generalizing d with
  | nil => rfl
  | cons a rest ih => simp [ih]

theorem parent_orphan (ids : List NodeId) :
    (d.orphan ids).parent x = if x ∈ ids then none else d.parent x := by
  unfold orphan
  induction ids generalizing d with
  | nil => simp
  | cons a rest ih =>
    rw [List.foldl_cons, ih, parent_withParent]
    by_cases hr : x ∈ rest
    · simp [hr]
    · by_cases e : x = a
      · subst e
        by_cases hh : d.Holds x
        · simp [hh]
        · simp [hh, parent_of_not_holds hh]
      · simp [hr, e]

end Nodes

theorem content_of_isObject {d : Document} {id : NodeId} (h : d.isObject id = true) :
    d.content id = .object (d.members id) := by
  unfold isObject members at *
  cases hc : d.content id <;> simp_all [Content.isObject, Content.members]

theorem content_of_isArray {d : Document} {id : NodeId} (h : d.isArray id = true) :
    d.content id = .array (d.items id) := by
  unfold isArray items at *
  cases hc : d.content id <;> simp_all [Content.isArray, Content.items]

theorem holds_of_isObject {d : Document} {id : NodeId} (h : d.isObject id = true) : d.Holds id := by
  apply Classical.byContradiction
  intro hn
  simp [isObject, content_of_not_holds hn, Content.isObject] at h

theorem holds_of_isArray {d : Document} {id : NodeId} (h : d.isArray id = true) : d.Holds id := by
  apply Classical.byContradiction
  intro hn
  simp [isArray, content_of_not_holds hn, Content.isArray] at h

theorem parts_of_object {d : Document} {id : NodeId} {ms : List (Member NodeId)}
    (h : d.content id = .object ms) : d.parts id = ms.map Member.value := by
  simp [parts, h, Content.parts]

theorem members_of_object {d : Document} {id : NodeId} {ms : List (Member NodeId)}
    (h : d.content id = .object ms) : d.members id = ms := by
  simp [members, h, Content.members]

theorem parts_of_array {d : Document} {id : NodeId} {items : List NodeId}
    (h : d.content id = .array items) : d.parts id = items := by
  simp [parts, h, Content.parts]

theorem get?_eq_some {d : Document} {object : NodeId} {key : String} {id : NodeId}
    (h : d.get? object key = some id) :
    ∃ m, Member.find? key (d.members object) = some m ∧ m.value = id := by
  unfold get? member? at h
  exact Option.map_eq_some_iff.mp h

theorem get?_eq_none_iff {d : Document} {object : NodeId} {key : String} :
    d.get? object key = none ↔ key ∉ (d.members object).map Member.key := by
  rw [get?, Option.map_eq_none_iff, member?, Member.find?_eq_none_iff]

theorem mem_parts_of_mem_members {d : Document} {object : NodeId} {m : Member NodeId}
    (h : m ∈ d.members object) : m.value ∈ d.parts object := by
  unfold members parts at *
  cases hc : d.content object with
  | object ms =>
    rw [hc] at h
    exact List.mem_map_of_mem h
  | _ => rw [hc] at h; cases h

theorem mem_parts_of_get? {d : Document} {object : NodeId} {key : String} {id : NodeId}
    (h : d.get? object key = some id) : id ∈ d.parts object := by
  obtain ⟨m, hm, rfl⟩ := get?_eq_some h
  exact mem_parts_of_mem_members (Member.find?_mem hm).1

theorem isObject_of_get? {d : Document} {object : NodeId} {key : String} {id : NodeId}
    (h : d.get? object key = some id) : d.isObject object = true := by
  obtain ⟨m, hm, -⟩ := get?_eq_some h
  have := (Member.find?_mem hm).1
  unfold members isObject at *
  cases hc : d.content object with
  | object ms => rfl
  | _ => rw [hc] at this; cases this

/-! ## The effect of a change -/

/-- `d'` comes from `d` by a change to the parts of one node. -/
structure Edited (d d' : Document) (site : NodeId) : Prop where
  wellFormed : d'.WellFormed
  size_le : d.nodes.size ≤ d'.nodes.size
  root_eq : d'.root = d.root
  elsewhere : ∀ {id}, d.Holds id → id ≠ site → d'.content id = d.content id ∧ d'.position id = d.position id
  parent_cases : ∀ {id}, d.Holds id →
    d'.parent id = d.parent id ∨ (d.parent id = some site ∧ d'.parent id = none)
  fresh_parent : ∀ {id owner}, ¬ d.Holds id → d'.parent id = some owner → ¬ d.Holds owner ∨ owner = site

namespace Edited

variable {d d' d'' : Document} {site : NodeId}

theorem refl (h : d.WellFormed) (site : NodeId) : Edited d d site where
  wellFormed := h
  size_le := Nat.le_refl _
  root_eq := rfl
  elsewhere _ _ := ⟨rfl, rfl⟩
  parent_cases _ := Or.inl rfl
  fresh_parent hn hp := absurd (holds_of_parent hp) hn

theorem holds (h : Edited d d' site) {id : NodeId} (hh : d.Holds id) : d'.Holds id :=
  Nat.lt_of_lt_of_le hh h.size_le

theorem trans (h : Edited d d' site) (h' : Edited d' d'' site) : Edited d d'' site where
  wellFormed := h'.wellFormed
  size_le := h.size_le.trans h'.size_le
  root_eq := h'.root_eq.trans h.root_eq
  elsewhere hh hne :=
    ⟨(h'.elsewhere (h.holds hh) hne).1.trans (h.elsewhere hh hne).1,
      (h'.elsewhere (h.holds hh) hne).2.trans (h.elsewhere hh hne).2⟩
  parent_cases := by
    intro id hh
    rcases h.parent_cases hh with e | ⟨hs, e⟩ <;> rcases h'.parent_cases (h.holds hh) with e' | ⟨hs', e'⟩
    · exact Or.inl (e'.trans e)
    · exact Or.inr ⟨e ▸ hs', e'⟩
    · exact Or.inr ⟨hs, e'.trans e⟩
    · exact Or.inr ⟨hs, e'⟩
  fresh_parent := by
    intro id owner hn hp
    by_cases hh : d'.Holds id
    · rcases h'.parent_cases hh with e | ⟨-, e⟩
      · exact h.fresh_parent hn (e ▸ hp)
      · rw [e] at hp; cases hp
    · rcases h'.fresh_parent hh hp with ho | ho
      · exact Or.inl fun hd => ho (h.holds hd)
      · exact Or.inr ho

/-- A node that does not have the site under it reads as before. -/
theorem tree_eq (h : Edited d d' site) (hd : d.Linked) {id : NodeId} (hh : d.Holds id)
    (hn : ¬ d.Under id site) : d'.tree id = d.tree id :=
  tree_congr hd h.wellFormed.toLinked id fun _ hx => h.elsewhere (holds_of_under hh hx) fun e => hn (e ▸ hx)

end Edited

/-- A well-formed document stays so when one node gives up its parts for others. -/
theorem WellFormed.relink {d d' : Document} (h : d.WellFormed) (owner : NodeId) (hroot : d'.root = d.root)
    (hsize : d'.nodes.size = d.nodes.size) (hcontent : ∀ id, id ≠ owner → d'.content id = d.content id)
    (hparts : (d'.parts owner).Nodup) (hkeys : ((d'.members owner).map Member.key).Nodup)
    (hfrom : ∀ part ∈ d'.parts owner, part ∈ d.parts owner ∨
      (d.Holds part ∧ d.parent part = none ∧ part ≠ d.root ∧ ¬ d.Under part owner))
    (hparent : ∀ id, (id ∈ d'.parts owner ∧ d'.parent id = some owner) ∨
      (id ∉ d'.parts owner ∧ id ∈ d.parts owner ∧ d'.parent id = none) ∨
      (id ∉ d'.parts owner ∧ id ∉ d.parts owner ∧ d'.parent id = d.parent id)) : d'.WellFormed where
  toLinked := h.toLinked.relink owner hsize hcontent hparts hkeys
    (fun part hp => (hfrom part hp).imp_right fun ⟨hh, hf, _, hu⟩ => ⟨hh, hf, hu⟩) hparent
  root_held := by
    show d'.root.index < d'.nodes.size
    rw [hroot, hsize]; exact h.root_held
  root_free := by
    rw [hroot]
    rcases hparent d.root with ⟨hm, -⟩ | ⟨-, -, e⟩ | ⟨-, -, e⟩
    · rcases hfrom _ hm with ho | ⟨-, -, hne, -⟩
      · exact absurd (h.parent_iff.mpr ho) (by rw [h.root_free]; simp)
      · exact absurd rfl hne
    · exact e
    · rw [e]; exact h.root_free

/-! ## Attaching a free node -/

section SetProperty

variable {d : Document} {object value : NodeId} {ms : List (Member NodeId)} (key : String)
  (position : Option Position)

theorem content_setProperty (value : NodeId) (hms : d.content object = .object ms) (id : NodeId) :
    (d.setProperty object key position value).content id =
      if id = object then .object (Member.put key position value ms) else d.content id := by
  have ho : d.Holds object := holds_of_isObject (by simp [isObject, hms, Content.isObject])
  simp only [setProperty, hms, content_withParent]
  split
  · split <;> simp [ho]
  · simp [ho]

theorem parent_setProperty (h : d.Linked) (hms : d.content object = .object ms) (hv : d.Holds value)
    (id : NodeId) :
    (d.setProperty object key position value).parent id =
      if id = value then some object else if d.get? object key = some id then none else d.parent id := by
  simp only [setProperty, hms, get?, member?, members_of_object hms]
  cases hf : Member.find? key ms with
  | none => simp [hv]
  | some m =>
    have hg : d.get? object key = some m.value := by simp [get?, member?, members_of_object hms, hf]
    have hm : d.Holds m.value := h.parts_held (mem_parts_of_get? hg)
    by_cases e : m.value = value
    · by_cases ei : id = value
      · simp [e, ei, hv]
      · simp [e, ei, Ne.symm ei]
    · simp [e, hm, hv, eq_comm (a := id) (b := m.value)]

theorem size_setProperty : (d.setProperty object key position value).nodes.size = d.nodes.size := by
  unfold setProperty
  split
  · simp only [size_withParent]
    split
    · split <;> simp
    · simp
  · rfl

theorem root_setProperty : (d.setProperty object key position value).root = d.root := by
  unfold setProperty
  split
  · simp only [root_withParent]
    split
    · split <;> rfl
    · rfl
  · rfl

theorem position_setProperty (id : NodeId) :
    (d.setProperty object key position value).position id = d.position id := by
  unfold setProperty
  split
  · simp only [position_withParent]
    split
    · split <;> simp
    · simp
  · rfl

/-- What is no object has no properties to set. -/
theorem setProperty_of_not_isObject (ho : ¬ d.isObject object = true) :
    d.setProperty object key position value = d := by
  unfold setProperty
  cases hc : d.content object with
  | object ms => exact absurd (by simp [isObject, hc, Content.isObject]) ho
  | _ => rfl

/-- Setting a property to a node that was free and is not above the object keeps a document well-formed. -/
theorem WellFormed.setProperty (h : d.WellFormed) (hv : d.Holds value) (hfree : d.parent value = none)
    (hroot : value ≠ d.root) (hu : ¬ d.Under value object) :
    (d.setProperty object key position value).WellFormed := by
  by_cases hobj : d.isObject object = true
  · have hms := content_of_isObject hobj
    have hnot : value ∉ d.parts object := fun hp => by rw [h.parent_iff.mpr hp] at hfree; cases hfree
    have hc := content_setProperty key position value hms
    have hcp := parts_of_object (hc object |>.trans (if_pos rfl))
    have hparts := parts_of_object hms
    have hn := h.parts_nodup object
    -- The new list has the value, and what the old one had but for the value that the key had before.
    have hmem : ∀ id, id ∈ (d.setProperty object key position value).parts object ↔
        id = value ∨ (d.get? object key ≠ some id ∧ id ∈ d.parts object) := by
      intro id
      rw [hcp, hparts]
      unfold get? member?
      cases hf : Member.find? key (d.members object) with
      | none => simp [Member.put_of_absent (Member.find?_eq_none_iff.mp hf), or_comm]
      | some m =>
        rw [(Member.values_put_present hf (hparts ▸ hn) (hparts ▸ hnot)).2]
        simp [eq_comm]
    refine h.relink object (root_setProperty ..) (size_setProperty ..) (fun id hid => ?_) ?_ ?_ ?_ ?_
    · rw [hc, if_neg hid]
    · rw [hcp]
      cases hf : Member.find? key (d.members object) with
      | none =>
        rw [Member.put_of_absent (Member.find?_eq_none_iff.mp hf), List.map_append, List.nodup_append,
          ← hparts]
        refine ⟨hn, by simp, fun a ha b hb e => ?_⟩
        obtain rfl : b = value := by simpa using hb
        exact hnot (e ▸ ha)
      | some m => exact (Member.values_put_present hf (hparts ▸ hn) (hparts ▸ hnot)).1
    · rw [members_of_object (hc object |>.trans (if_pos rfl))]
      exact Member.nodup_keys_put (h.keys_nodup object)
    · intro part hp
      rcases (hmem part).mp hp with rfl | ⟨-, hp⟩
      · exact Or.inr ⟨hv, hfree, hroot, hu⟩
      · exact Or.inl hp
    · intro id
      rw [hmem, parent_setProperty key position h.toLinked hms hv]
      by_cases e : id = value
      · simp [e]
      · by_cases eg : d.get? object key = some id
        · simp [e, eg, mem_parts_of_get? eg]
        · by_cases hm : id ∈ d.parts object
          · simp [e, eg, hm, h.parent_iff.mpr hm]
          · simp [e, eg, hm]
  · rw [setProperty_of_not_isObject key position hobj]; exact h

end SetProperty

/-- Putting a node that was free, and is not above the array, at its end keeps a document well-formed. -/
theorem WellFormed.push {d : Document} (h : d.WellFormed) {array value : NodeId} (hv : d.Holds value)
    (hfree : d.parent value = none) (hroot : value ≠ d.root) (hu : ¬ d.Under value array) :
    (d.push array value).WellFormed := by
  unfold Document.push
  split
  · rename_i items hitems
    have ha : d.Holds array := holds_of_isArray (by simp [isArray, hitems, Content.isArray])
    have hparts := parts_of_array hitems
    have hnot : value ∉ items := fun hp => by
      rw [h.parent_iff.mpr (hparts ▸ hp)] at hfree
      cases hfree
    have hc : ((d.withContent array (.array (items ++ [value]))).withParent value (some array)).content array =
        .array (items ++ [value]) := by simp [ha]
    have hcp := parts_of_array hc
    refine h.relink array rfl (by simp) (fun id hid => by simp [hid]) ?_ ?_ ?_ ?_
    · rw [hcp, List.nodup_append]
      refine ⟨hparts ▸ h.parts_nodup array, by simp, fun a ha b hb e => ?_⟩
      obtain rfl : b = value := by simpa using hb
      exact hnot (e ▸ ha)
    · simp [members, ha, Content.members]
    · intro part hp
      rw [hcp] at hp
      rcases List.mem_append.mp hp with hp | hp
      · exact Or.inl (hparts ▸ hp)
      · obtain rfl : part = value := by simpa using hp
        exact Or.inr ⟨hv, hfree, hroot, hu⟩
    · intro id
      rw [hcp, hparts]
      by_cases e : id = value
      · simp [e, hv]
      · by_cases hm : id ∈ items
        · simp [e, hm, h.parent_iff.mpr (hparts ▸ hm)]
        · simp [e, hm]
  · exact h

/-! ## Copies -/

/-- A copy that is stored hangs nowhere near what was there before. -/
theorem WellFormed.add_edited {d : Document} (h : d.WellFormed) {t : Tree} (ht : t.Keyed) (site : NodeId) :
    Edited d (d.add t none) site where
  wellFormed := h.add ht
  size_le := by simp
  root_eq := rfl
  elsewhere hh _ := by
    have := node_add_held t none hh
    simp [content, position, this]
  parent_cases hh := by
    have := node_add_held t none hh
    simp [parent, this]
  fresh_parent := by
    intro id owner hn hp
    have hl := laid_nodes none d.nodes.size t ht
    have hid := holds_of_parent hp
    obtain ⟨n, hat⟩ : ∃ n, laidAt? d.nodes.size (t.nodes none d.nodes.size) id = some n := by
      simp only [Holds, size_add] at hn hid
      unfold laidAt?
      rw [if_pos (by omega)]
      exact ⟨_, List.getElem?_eq_getElem (by rw [length_nodes]; omega)⟩
    have hnode : (d.add t none).node id = n := node_store_laid hat
    rw [parent, hnode] at hp
    by_cases hi : id = ⟨d.nodes.size⟩
    · obtain ⟨m, hm, hmo⟩ := hl.tops_hang (List.mem_singleton.mpr hi)
      obtain rfl : n = m := Option.some.inj (hat.symm.trans hm)
      rw [hmo] at hp; cases hp
    · obtain ⟨above, m, hm, hmem⟩ := hl.others_hang hat (by simpa using hi)
      obtain ⟨-, -, o, ho, hop⟩ := hl.parts_hang hm hmem
      obtain rfl : n = o := Option.some.inj (hat.symm.trans ho)
      obtain rfl : owner = above := Option.some.inj (hp.symm.trans hop)
      have := (laidAt?_bounds hm).1
      exact Or.inl (by simp only [Holds]; omega)

theorem not_holds_nextId (d : Document) : ¬ d.Holds d.nextId := Nat.lt_irrefl _

theorem ne_root_of_not_holds {d : Document} (h : d.WellFormed) {id : NodeId} (hn : ¬ d.Holds id) :
    id ≠ d.root :=
  fun e => hn (e ▸ h.root_held)

/-- `e` is `d` with a tree stored at the first free handle of `d`, where it hangs nowhere. -/
structure Beside (d e : Document) (t : Tree) : Prop where
  edited : ∀ site, Edited d e site
  held : e.Holds d.nextId
  free : e.parent d.nextId = none
  reads : e.tree d.nextId = t

theorem WellFormed.add_beside {d : Document} (h : d.WellFormed) {t : Tree} (ht : t.Keyed) :
    Beside d (d.add t none) t :=
  ⟨h.add_edited ht, holds_nextId_add d t none, parent_nextId_add d ht none, h.toLinked.tree_nextId_add ht⟩

namespace Beside

variable {d e : Document} {t : Tree} {id : NodeId} (g : Beside d e t)
include g

theorem content_eq (hh : d.Holds id) : e.content id = d.content id :=
  ((g.edited d.nextId).elsewhere hh fun hid => not_holds_nextId d (hid ▸ hh)).1

theorem position_eq (hh : d.Holds id) : e.position id = d.position id :=
  ((g.edited d.nextId).elsewhere hh fun hid => not_holds_nextId d (hid ▸ hh)).2

variable (h : d.WellFormed)
include h

theorem ne_root : d.nextId ≠ e.root := by
  rw [(g.edited d.root).root_eq]
  exact ne_root_of_not_holds h (not_holds_nextId d)

/-- What was there before lies under nothing that was stored later. -/
theorem not_under (hh : d.Holds id) : ¬ e.Under d.nextId id := by
  intro hu
  have held : ∀ {a b}, d.Holds a → ReflTransGen e.Hangs a b → d.Holds b := by
    intro a b ha hab
    induction hab with
    | refl => exact ha
    | tail _ hbc ih =>
      rcases (g.edited id).parent_cases ih with hp | ⟨-, hp⟩
      · exact h.holds_owner (hp.symm.trans hbc)
      · rw [Hangs, hp] at hbc; cases hbc
  exact not_holds_nextId d (held hh hu)

/-- The tree becomes a property of an object. -/
theorem setProperty_edited {object : NodeId} (ho : d.Holds object) (key : String) (position : Option Position) :
    Edited d (e.setProperty object key position d.nextId) object := by
  have he := g.edited object
  have hwf := he.wellFormed.setProperty key position g.held g.free (g.ne_root h) (g.not_under h ho)
  by_cases hobj : e.isObject object = true
  · have hms := content_of_isObject hobj
    have hpar := parent_setProperty key position he.wellFormed.toLinked hms g.held
    refine ⟨hwf, ?_, (root_setProperty ..).trans he.root_eq, ?_, ?_, ?_⟩
    · rw [size_setProperty]; exact he.size_le
    · intro id hh hne
      rw [content_setProperty key position d.nextId hms, if_neg hne, position_setProperty]
      exact he.elsewhere hh hne
    · intro id hh
      rw [hpar, if_neg fun hid : id = d.nextId => not_holds_nextId d (hid ▸ hh)]
      split
      · rename_i hg
        have : e.parent id = some object := he.wellFormed.parent_iff.mpr (mem_parts_of_get? hg)
        rcases he.parent_cases hh with hp | ⟨-, hp⟩
        · exact Or.inr ⟨hp ▸ this, rfl⟩
        · rw [hp] at this; cases this
      · exact he.parent_cases hh
    · intro id owner hn hp
      rw [hpar] at hp
      split at hp
      · exact Or.inr (Option.some.inj hp).symm
      · split at hp
        · cases hp
        · exact he.fresh_parent hn hp
  · rw [setProperty_of_not_isObject key position hobj]; exact he

/-- The tree goes to the end of an array. -/
theorem push_edited {array : NodeId} (ha : d.Holds array) : Edited d (e.push array d.nextId) array := by
  have he := g.edited array
  have hwf := he.wellFormed.push g.held g.free (g.ne_root h) (g.not_under h ha)
  cases hc : e.content array with
  | array items =>
    have hpush : e.push array d.nextId =
        (e.withContent array (.array (items ++ [d.nextId]))).withParent d.nextId (some array) := by
      simp [Document.push, hc]
    refine ⟨hwf, ?_, ?_, ?_, ?_, ?_⟩
    · rw [hpush]; simpa using he.size_le
    · rw [hpush]; exact he.root_eq
    · intro id hh hne
      rw [hpush]
      simpa [hne] using he.elsewhere hh hne
    · intro id hh
      have hne : id ≠ d.nextId := fun hid => not_holds_nextId d (hid ▸ hh)
      rw [hpush]
      simpa [hne] using he.parent_cases hh
    · intro id owner hn hp
      rw [hpush, parent_withParent, parent_withContent] at hp
      split at hp
      · exact Or.inr (Option.some.inj hp).symm
      · exact he.fresh_parent hn hp
  | _ =>
    have : e.push array d.nextId = e := by simp [Document.push, hc]
    rw [this]; exact he

end Beside

/-- A copy becomes a property of an object. -/
theorem WellFormed.insert_edited {d : Document} (h : d.WellFormed) {object : NodeId} (ho : d.Holds object)
    {m : Member Tree} (ht : m.value.Keyed) : Edited d (d.perform (.insert object m)) object :=
  (h.add_beside ht).setProperty_edited h ho m.key m.position

/-- A copy goes to the end of an array. -/
theorem WellFormed.pushCopy_edited {d : Document} (h : d.WellFormed) {array : NodeId}
    (ha : d.Holds array) {t : Tree} (ht : t.Keyed) :
    Edited d ((d.add t none).push array d.nextId) array :=
  (h.add_beside ht).push_edited h ha

/-- Copies go to the end of an array. -/
theorem WellFormed.append_edited {d : Document} (h : d.WellFormed) {array : NodeId} (ha : d.Holds array)
    {items : List Tree} (hi : ∀ t ∈ items, t.Keyed) : Edited d (d.append array items) array := by
  induction items generalizing d with
  | nil => exact .refl h array
  | cons t rest ih =>
    have hfirst := h.pushCopy_edited ha (hi t List.mem_cons_self)
    exact hfirst.trans (ih hfirst.wellFormed (hfirst.holds ha) fun u hu => hi u (List.mem_cons_of_mem _ hu))

/-! ## Taking out -/

section Release

variable {d : Document} {owner part : NodeId} {c : Content NodeId}

theorem parent_release (owner : NodeId) (c : Content NodeId) (hp : d.Holds part) (id : NodeId) :
    ((d.withContent owner c).withParent part none).parent id = if id = part then none else d.parent id := by
  simp [hp]

/-- One part leaves its owner, and the others stay. -/
theorem WellFormed.release_edited (h : d.WellFormed) (hp : part ∈ d.parts owner)
    (hc : ∀ id, id ∈ c.parts ↔ id ≠ part ∧ id ∈ d.parts owner) (hparts : c.parts.Nodup)
    (hkeys : (c.members.map Member.key).Nodup) :
    Edited d ((d.withContent owner c).withParent part none) owner := by
  have hown := h.holds_owner (h.parent_iff.mpr hp)
  have hpar := parent_release owner c (h.parts_held hp)
  have hcontent : ((d.withContent owner c).withParent part none).content owner = c := by simp [hown]
  refine ⟨?_, by simp, rfl, fun _ hne => by simp [hne], fun {id} _ => ?_, fun {id above} hn hpa => ?_⟩
  · refine h.relink owner rfl (by simp) (fun id hid => by simp [hid]) ?_ ?_ ?_ ?_
    · rw [parts, hcontent]; exact hparts
    · rw [members, hcontent]; exact hkeys
    · intro id hid
      rw [parts, hcontent, hc] at hid
      exact Or.inl hid.2
    · intro id
      rw [parts, hcontent, hc, hpar]
      by_cases e : id = part
      · simp [e, hp]
      · by_cases hi : id ∈ d.parts owner
        · simp [e, hi, h.parent_iff.mpr hi]
        · simp [e, hi]
  · rw [hpar]
    by_cases e : id = part
    · exact Or.inr ⟨e ▸ h.parent_iff.mpr hp, if_pos e⟩
    · exact Or.inl (if_neg e)
  · rw [hpar] at hpa
    split at hpa
    · cases hpa
    · exact absurd (holds_of_parent hpa) hn

end Release

theorem removeProperty?_eq_some {d d' : Document} {object : NodeId} {key : String}
    (hd : d.removeProperty? object key = some d') :
    ∃ m, d.content object = .object (d.members object) ∧ Member.find? key (d.members object) = some m ∧
      d' = (d.withContent object (.object (Member.erase key (d.members object)))).withParent m.value
        none := by
  unfold removeProperty? at hd
  split at hd
  · rename_i ms hms
    obtain ⟨m, hm, rfl⟩ := Option.map_eq_some_iff.mp hd
    rw [members_of_object hms]
    exact ⟨m, hms, hm, rfl⟩
  · cases hd

theorem perform_remove {d : Document} {object part : NodeId} {key : String} (h : d.get? object key = some part) :
    d.perform (.remove object key) =
      (d.withContent object (.object (Member.erase key (d.members object)))).withParent part none := by
  obtain ⟨m, hm, rfl⟩ := get?_eq_some h
  show (d.removeProperty? object key).getD d = _
  simp only [removeProperty?, content_of_isObject (isObject_of_get? h), hm, Option.map_some, Option.getD_some]

/-- A property leaves its object; the value that it held becomes free. -/
theorem WellFormed.removeProperty_edited {d d' : Document} (h : d.WellFormed) {object : NodeId}
    {key : String} (hd : d.removeProperty? object key = some d') : Edited d d' object := by
  obtain ⟨m, hms, hm, rfl⟩ := removeProperty?_eq_some hd
  have hparts := parts_of_object hms
  have hvals : ((d.members object).map Member.value).Nodup := hparts ▸ h.parts_nodup object
  have hsub := Member.erase_sublist key (d.members object)
  refine h.release_edited (mem_parts_of_mem_members (Member.find?_mem hm).1) (fun id => ?_) ?_ ?_
  · rw [hparts]; exact Member.mem_values_erase hm hvals id
  · exact hvals.sublist (hsub.map _)
  · exact (h.keys_nodup object).sublist (hsub.map _)

/-- Whether or not it is there, a property that leaves its object leaves a document well-formed. -/
theorem WellFormed.remove_edited {d : Document} (h : d.WellFormed) (object : NodeId) (key : String) :
    Edited d (d.perform (.remove object key)) object := by
  show Edited d ((d.removeProperty? object key).getD d) object
  cases hd : d.removeProperty? object key with
  | none => exact .refl h object
  | some d' => exact h.removeProperty_edited hd

/-- In a well-formed document, the slot of a node that hangs in an object is the property that holds it. -/
theorem WellFormed.slot_property {d : Document} (h : d.WellFormed) {id object : NodeId} {key : String}
    (hs : d.slot id = .property object key) :
    d.parent id = some object ∧ ∃ m, Member.find? key (d.members object) = some m ∧ m.value = id := by
  unfold slot at hs
  split at hs
  · cases hs
  · rename_i owner hp
    split at hs
    · cases hs
    · rename_i ms hms
      split at hs
      · rename_i m hf
        obtain ⟨rfl, rfl⟩ : owner = object ∧ m.key = key := by simpa using hs
        have hv : m.value = id := by simpa using List.find?_some hf
        rw [members_of_object hms]
        have hkeys : (ms.map Member.key).Nodup := members_of_object hms ▸ h.keys_nodup owner
        exact ⟨hp, m, Member.find?_of_mem hkeys (List.mem_of_find?_eq_some hf), hv⟩
      · cases hs
    · split at hs <;> cases hs

theorem slot_element {d : Document} {id array : NodeId} {index : Nat}
    (hs : d.slot id = .element array index) :
    d.parent id = some array ∧ d.content array = .array (d.items array) ∧
      (d.items array).eraseIdx index = (d.items array).erase id := by
  unfold slot at hs
  split at hs
  · cases hs
  · rename_i owner hp
    split at hs
    · cases hs
    · split at hs <;> cases hs
    · rename_i items hitems
      split at hs
      · rename_i i hf
        obtain ⟨rfl, rfl⟩ : owner = array ∧ i = index := by simpa using hs
        have hi : d.items owner = items := by simp [Document.items, hitems, Content.items]
        have hf' : items.idxOf? id = some i := hf
        rw [hi, List.erase_eq_eraseIdx, hf']
        exact ⟨hp, hitems, rfl⟩
      · cases hs

/-- A node that has a parent has a slot in it. -/
theorem WellFormed.slot_ne_none {d : Document} (h : d.WellFormed) {id owner : NodeId}
    (hp : d.parent id = some owner) : d.slot id ≠ .none := by
  have hm : id ∈ d.parts owner := h.parent_iff.mp hp
  unfold slot
  rw [hp]
  simp only
  cases hc : d.content owner with
  | scalar s => simp [parts, hc, Content.parts] at hm
  | array items =>
    rw [parts_of_array hc] at hm
    simp only
    split
    · simp
    · rename_i hf
      have hf' : items.idxOf? id = none := hf
      exact absurd hm (List.idxOf?_eq_none_iff.mp hf')
  | object ms =>
    rw [parts_of_object hc] at hm
    obtain ⟨m, hmem, rfl⟩ := List.mem_map.mp hm
    simp only
    split
    · simp
    · rename_i hf
      exact absurd (List.find?_eq_none.mp hf m hmem) (by simp)

/-- A node leaves its parent. -/
theorem WellFormed.detach_edited {d d' : Document} (h : d.WellFormed) {id : NodeId}
    (hd : d.detach? id = some d') :
    ∃ owner, d.parent id = some owner ∧ Edited d d' owner ∧
      ∀ x, d'.parent x = if x = id then none else d.parent x := by
  unfold detach? at hd
  split at hd
  · cases hd
  · rename_i object key hs
    obtain ⟨hp, m, hm, rfl⟩ := h.slot_property hs
    refine ⟨object, hp, h.removeProperty_edited hd, ?_⟩
    obtain ⟨n, -, hn, rfl⟩ := removeProperty?_eq_some hd
    obtain rfl : m = n := Option.some.inj (hm.symm.trans hn)
    exact parent_release _ _ (holds_of_parent hp)
  · rename_i array index hs
    obtain ⟨hp, hc, he⟩ := slot_element hs
    rw [he] at hd
    obtain rfl := Option.some.inj hd
    have hparts := parts_of_array hc
    have hnodup : (d.items array).Nodup := hparts ▸ h.parts_nodup array
    refine ⟨array, hp, h.release_edited (h.parent_iff.mp hp) (fun x => ?_) ?_ List.nodup_nil,
      parent_release _ _ (holds_of_parent hp)⟩
    · rw [hparts]; exact hnodup.mem_erase_iff
    · exact hnodup.sublist List.erase_sublist

theorem WellFormed.detach?_eq_none {d : Document} (h : d.WellFormed) {id : NodeId}
    (hd : d.detach? id = none) : d.parent id = none := by
  apply Classical.byContradiction
  intro hp
  obtain ⟨owner, hp⟩ := Option.ne_none_iff_exists'.mp hp
  unfold detach? at hd
  split at hd
  · exact h.slot_ne_none hp ‹_›
  · rename_i object key hs
    obtain ⟨-, m, hm, -⟩ := h.slot_property hs
    have := (Member.find?_mem hm).1
    unfold removeProperty? at hd
    split at hd
    · rename_i ms hms
      rw [members_of_object hms] at hm
      simp [hm] at hd
    · rename_i hc
      unfold members at this
      cases hcc : d.content object with
      | object ms => exact hc ms hcc
      | _ => rw [hcc] at this; cases this
  · cases hd

end Reshape.Document
