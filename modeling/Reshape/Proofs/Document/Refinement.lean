/-
  Reshape.Proofs.Document.Refinement — documents as values: what a change means at its location.

  A node that can be reached from the root is reached by one location, and stands for the part
  of the document's value that this location leads to. A change to the node then is the pure
  change to that part: the nodes above it read as before but for this part, and nothing else
  above, below or beside sees it. A change to a node that cannot be reached is not seen at all.

  - `Document.at?`: following a location down from a node, as one follows it down its value
    (`Linked.value_at?`). It reaches what is under the node (`Linked.exists_at?`).
  - `Varies d d' site`: only the site may hold something else. What is not above the site reads
    as before; what is above it, as before but for the value at the site (`Varies.value_at`).
  - `Edit`: the changes that may be asked for, with what each of them does to the document
    (`Edit.run`) and to its value (`Edit.update`). `edit_refines`: the one comes to the other.
-/

import Reshape.Proofs.Document.Entries
import Reshape.Proofs.Json.Updating

namespace Reshape

open Relation (ReflTransGen)

namespace Document

/-! ## Locations -/

def child? (d : Document) (id : NodeId) (s : Step) : Option NodeId := (d.content id).child? s

def at? (d : Document) (id : NodeId) : Location → Option NodeId
  | [] => some id
  | s :: rest => (d.child? id s).bind fun part => d.at? part rest

variable {d d' : Document} {top site id part : NodeId} {s : Step} {l : Location}

theorem at?_append (d : Document) (id : NodeId) (l more : Location) :
    d.at? id (l ++ more) = (d.at? id l).bind fun x => d.at? x more := by
  induction l generalizing id with
  | nil => rfl
  | cons s rest ih =>
    rw [List.cons_append, at?, at?]
    cases d.child? id s with
    | none => rfl
    | some part => exact ih part

theorem at?_concat (d : Document) (id : NodeId) (l : Location) (s : Step) :
    d.at? id (l ++ [s]) = (d.at? id l).bind fun x => d.child? x s := by
  rw [at?_append]
  congr 1
  funext x
  simp [at?]

theorem mem_parts_of_child? (h : d.child? id s = some part) : part ∈ d.parts id :=
  Content.mem_parts_of_child? h

/-- A location leads down. -/
theorem Linked.under_of_at? (h : d.Linked) (hl : d.at? top l = some id) : d.Under top id := by
  induction l generalizing top with
  | nil =>
    obtain rfl : top = id := Option.some.inj hl
    exact .refl
  | cons s rest ih =>
    obtain ⟨part, hp, hr⟩ := Option.bind_eq_some_iff.mp hl
    exact (ih hr).tail (h.parent_iff.mpr (mem_parts_of_child? hp))

/-- What is under a node is reached by a location. -/
theorem Linked.exists_at? (h : d.Linked) (hu : d.Under top id) : ∃ l, d.at? top l = some id := by
  induction hu using ReflTransGen.head_induction_on with
  | refl => exact ⟨[], rfl⟩
  | @head x owner hx _ ih =>
    obtain ⟨l, hl⟩ := ih
    obtain ⟨s, hs⟩ := Content.exists_child? (h.keys_nodup owner) (h.parent_iff.mp hx)
    refine ⟨l ++ [s], ?_⟩
    rw [at?_concat, hl]
    exact hs

/-- A node reads as its content with each part read in its place. -/
theorem Linked.value_eq (h : d.Linked) (id : NodeId) : d.value id = ((d.content id).map d.value).toValue := by
  rw [value, h.tree_eq, Tree.value_eq]
  cases d.content id <;> simp [Content.map, Content.toValue, value]

/-- A location leads to the same in a node as in the value of the node. -/
theorem Linked.value_at? (h : d.Linked) (id : NodeId) (l : Location) :
    (d.value id).at? l = (d.at? id l).map d.value := by
  induction l generalizing id with
  | nil => rfl
  | cons s rest ih =>
    rw [Value.at?, h.value_eq, Content.child?_toValue, at?, child?]
    cases (d.content id).child? s with
    | none => rfl
    | some part => exact ih part

/-! ## Changes at one site -/

/-- `d'` differs from `d` in what `site` holds, and in what `d` did not have. -/
structure Varies (d d' : Document) (site : NodeId) : Prop where
  linked : d'.Linked
  root_eq : d'.root = d.root
  elsewhere : ∀ {id}, d.Holds id → id ≠ site → d'.content id = d.content id ∧ d'.position id = d.position id

/-- Besides, the value of the site has changed as `f` says. -/
structure Revises (d d' : Document) (site : NodeId) (f : Value → Value) : Prop extends Varies d d' site where
  value : d'.value site = f (d.value site)

theorem Edited.varies (h : Edited d d' site) : Varies d d' site := ⟨h.wellFormed.toLinked, h.root_eq, h.elsewhere⟩

namespace Varies

variable (hv : Varies d d' site) (h : d.Linked)
include hv h

/-- What is not above the site reads as before. -/
theorem value_eq (hh : d.Holds id) (hn : ¬ d.Under id site) : d'.value id = d.value id := by
  have htree : d'.tree id = d.tree id := tree_congr h hv.linked id fun x hx =>
    hv.elsewhere (holds_of_under hh hx) fun e => hn (e ▸ hx)
  rw [value, value, htree]

/-- The site reads as what it now holds, if that is nothing above it. -/
theorem value_site {c : Content NodeId} (hc : d'.content site = c)
    (hp : ∀ x ∈ c.parts, d.Holds x ∧ ¬ d.Under x site) : d'.value site = (c.map d.value).toValue := by
  rw [hv.linked.value_eq, hc]
  congr 1
  exact Content.map_congr fun x hx => hv.value_eq h (hp x hx).1 (hp x hx).2

end Varies

namespace Revises

variable {f : Value → Value}

theorem unchanged (h : d.Linked) (hf : f (d.value site) = d.value site) : Revises d d site f :=
  ⟨⟨h, rfl, fun _ _ => ⟨rfl, rfl⟩⟩, hf.symm⟩

variable (hr : Revises d d' site f)
include hr

/-- What is above the site reads as before, but for the value of the site. -/
theorem value_at (h : d.Linked) (hl : d.at? top l = some site) :
    d'.value top = (d.value top).modifyAt f l := by
  induction l generalizing top with
  | nil =>
    obtain rfl : top = site := Option.some.inj hl
    exact hr.value
  | cons s rest ih =>
    obtain ⟨part, hpart, hrest⟩ := Option.bind_eq_some_iff.mp hl
    have hmem := mem_parts_of_child? hpart
    have hu := h.under_of_at? hrest
    -- The way down goes through one part, which the site is under; no other part is above the site.
    have hne : top ≠ site := fun e => h.not_under_part hmem (e ▸ hu)
    have hothers : ∀ y ∈ (d.content top).parts, y ≠ part → d'.value y = d.value y := fun y hy hyp =>
      hr.toVaries.value_eq h (h.parts_held hy) fun hys => hyp (h.eq_of_under_parts hy hmem hys hu)
    rw [hr.linked.value_eq, (hr.elsewhere (holds_of_mem_parts hmem) hne).1, h.value_eq top]
    exact Content.toValue_modify (h.keys_nodup top) (h.parts_nodup top) hpart (ih hrest) hothers

theorem rootValue_at (h : d.Linked) (hl : d.at? d.root l = some site) :
    d'.rootValue = d.rootValue.modifyAt f l := by
  rw [rootValue, hr.root_eq]
  exact hr.value_at h hl

theorem rootValue_eq (h : d.WellFormed) (hn : ¬ d.Under d.root site) : d'.rootValue = d.rootValue := by
  rw [rootValue, hr.root_eq]
  exact hr.toVaries.value_eq h.toLinked h.root_held hn

end Revises

/-! ## What each change does at its site -/

structure Attachable (d : Document) (owner id : NodeId) : Prop where
  held : d.Holds id
  free : d.parent id = none
  ne_root : id ≠ d.root
  not_above : ¬ d.Under id owner

section Sites

variable {n value owner : NodeId} {key old new : String}

theorem Linked.value_ne_object (h : d.Linked) (ho : ¬ d.isObject n = true) (ms : List (String × Value)) :
    d.value n ≠ .object ms := fun e => ho ((h.value_isObject n).mpr ⟨ms, e⟩)

theorem Linked.value_ne_array (h : d.Linked) (ha : ¬ d.isArray n = true) (items : List Value) :
    d.value n ≠ .array items := fun e => ha ((h.tree_isArray n).symm.trans (Tree.isArray_iff_value.mpr ⟨items, e⟩))

theorem Linked.value_members (h : d.Linked) (ho : d.isObject n = true) :
    ((Content.object (d.members n)).map d.value).toValue = d.value n := by
  rw [h.value_eq, content_of_isObject ho]

/-- Fewer parts of the site are still nothing above it. -/
theorem Linked.parts_not_above (h : d.Linked) {x : NodeId} (hx : x ∈ d.parts n) :
    d.Holds x ∧ ¬ d.Under x n :=
  ⟨h.parts_held hx, h.not_under_part hx⟩

theorem WellFormed.replace_revises (h : d.WellFormed) (hn : d.Holds n) {t : Tree} (ht : t.Keyed) :
    Revises d (d.replace n t) n fun _ => t.value where
  toVaries := (h.overwrite_edited hn ht).varies
  value := by rw [Document.value, tree_overwrite h hn ht]

theorem WellFormed.setProperty_revises (h : d.WellFormed) (position : Option Position)
    (hv : d.Attachable n value) :
    Revises d (d.setProperty n key position value) n (Value.setMember key (d.value value)) := by
  by_cases ho : d.isObject n = true
  · have hc := content_setProperty key position value (content_of_isObject ho)
    have hwf := h.setProperty key position hv.held hv.free hv.ne_root hv.not_above
    have hvaries : Varies d (d.setProperty n key position value) n :=
      ⟨hwf.toLinked, root_setProperty .., fun _ hne => ⟨(hc _).trans (if_neg hne), position_setProperty ..⟩⟩
    refine ⟨hvaries, ?_⟩
    rw [hvaries.value_site h.toLinked ((hc n).trans (if_pos rfl)), Content.toValue_put (h.keys_nodup n),
      h.value_members ho]
    intro x hx
    obtain ⟨m, hm, rfl⟩ := List.mem_map.mp hx
    rcases Member.mem_put hm with e | hm
    · exact e ▸ ⟨hv.held, hv.not_above⟩
    · exact h.parts_not_above (mem_parts_of_mem_members hm)
  · rw [setProperty_of_not_isObject key position ho]
    exact .unchanged h.toLinked (Value.setMember_of_not_object key (h.value_ne_object ho) _)

theorem WellFormed.removeProperty_revises (h : d.WellFormed) :
    Revises d ((d.removeProperty? n key).getD d) n (Value.removeChild (.key key)) := by
  by_cases ho : d.isObject n = true
  · have hvaries : Varies d ((d.removeProperty? n key).getD d) n := (h.remove_edited n key).varies
    refine ⟨hvaries, ?_⟩
    rw [hvaries.value_site h.toLinked ((content_remove ho key n).trans (if_pos rfl)),
      Content.toValue_erase (h.keys_nodup n), h.value_members ho]
    intro x hx
    obtain ⟨m, hm, rfl⟩ := List.mem_map.mp hx
    exact h.parts_not_above (mem_parts_of_mem_members ((Member.erase_sublist key _).subset hm))
  · rw [removeProperty?_of_not_isObject ho]
    exact .unchanged h.toLinked (Value.removeMember_of_not_object key (h.value_ne_object ho))

theorem WellFormed.renameProperty_revises (h : d.WellFormed) :
    Revises d ((d.renameProperty? n old new).getD d) n (Value.renameMember old new) := by
  cases hd : d.renameProperty? n old new with
  | some d' =>
    have hvaries := (h.renameProperty_edited hd).1.varies
    obtain ⟨v, hg⟩ : ∃ v, d.get? n old = some v := by
      refine Option.ne_none_iff_exists'.mp fun hnone => ?_
      rw [renameProperty?_eq_none_iff.mpr hnone] at hd
      cases hd
    have hold : old ∈ (d.members n).map Member.key := by
      obtain ⟨m, hm, -⟩ := get?_eq_some hg
      obtain ⟨hmem, rfl⟩ := Member.find?_mem hm
      exact List.mem_map_of_mem hmem
    refine ⟨hvaries, ?_⟩
    rw [Option.getD_some,
      hvaries.value_site h.toLinked ((h.content_renameProperty hd n).trans (if_pos rfl)),
      Content.toValue_renamed hold, h.value_members (isObject_of_get? hg)]
    intro x hx
    obtain ⟨k, hk, rfl⟩ := List.mem_map.mp hx
    obtain ⟨m, hm, rfl⟩ := List.mem_map.mp hk
    have hvalue : (if m.key = old then { m with key := new } else m).value = m.value := by split <;> rfl
    rw [hvalue]
    exact h.parts_not_above (mem_parts_of_mem_members (List.mem_filter.mp hm).1)
  | none =>
    refine .unchanged h.toLinked ?_
    by_cases ho : d.isObject n = true
    · have hg : d.get? n old = none := renameProperty?_eq_none_iff.mp hd
      have hold : old ∉ (d.members n).map Member.key := by
        rw [← keys_entries, ← Value.member?_eq_none_iff, member?_entries, hg]; rfl
      rw [← h.value_members ho, Content.toValue_object, Value.renameMember, Content.keys_values, if_neg hold]
    · exact Value.renameMember_of_not_object old new (h.value_ne_object ho)

theorem WellFormed.push_revises (h : d.WellFormed) (hv : d.Attachable n value) :
    Revises d (d.push n value) n (Value.addItems [d.value value]) := by
  by_cases ha : d.isArray n = true
  · have hc := content_push ha value
    have hpush : d.push n value =
        (d.withContent n (.array (d.items n ++ [value]))).withParent value (some n) := by
      simp [Document.push, content_of_isArray ha]
    have hvaries : Varies d (d.push n value) n := by
      refine ⟨(h.push hv.held hv.free hv.ne_root hv.not_above).toLinked, by rw [hpush]; rfl, fun _ hne => ?_⟩
      exact ⟨(hc _).trans (if_neg hne), by rw [hpush]; simp⟩
    refine ⟨hvaries, ?_⟩
    rw [hvaries.value_site h.toLinked ((hc n).trans (if_pos rfl)), Content.toValue_items, h.value_eq n,
      content_of_isArray ha]
    · rfl
    intro x hx
    rcases List.mem_append.mp hx with hx | hx
    · exact h.parts_not_above (parts_of_array (content_of_isArray ha) ▸ hx)
    · obtain rfl := List.mem_singleton.mp hx
      exact ⟨hv.held, hv.not_above⟩
  · rw [push_of_not_isArray ha]
    exact .unchanged h.toLinked (Value.addItems_of_not_array (h.value_ne_array ha) _)

theorem WellFormed.append_revises (h : d.WellFormed) (hn : d.Holds n) {items : List Tree}
    (hi : ∀ t ∈ items, t.Keyed) :
    Revises d (d.append n items) n (Value.addItems (items.map Tree.value)) := by
  have he := h.append_edited hn hi
  refine ⟨he.varies, ?_⟩
  by_cases ha : d.isArray n = true
  · obtain ⟨ha', hitems⟩ := h.tree_append ha hi
    rw [Document.value, Tree.value_of_isArray ((he.wellFormed.tree_isArray n).trans ha'), hitems, Document.value,
      Tree.value_of_isArray ((h.tree_isArray n).trans ha), List.map_append]
    rfl
  · rw [Value.addItems_of_not_array (h.value_ne_array ha), he.varies.value_site h.toLinked
      (content_append_of_not_isArray hn ha items) fun x hx => h.parts_not_above hx, h.value_eq n]

/-- A node that leaves its parent changes the value of the parent, by the step that leads to it. -/
theorem WellFormed.detach_revises (h : d.WellFormed) (hc : d.child? owner s = some n) :
    Revises d ((d.detach? n).getD d) owner (Value.removeChild s) := by
  have hp : d.parent n = some owner := h.parent_iff.mpr (mem_parts_of_child? hc)
  have hcontent := (h.content_detach hp owner).trans (if_pos rfl)
  cases hd : d.detach? n with
  | none => rw [h.detach?_eq_none hd] at hp; cases hp
  | some d' =>
    obtain ⟨p, hp', he, -⟩ := h.detach_edited hd
    obtain rfl : p = owner := Option.some.inj (hp'.symm.trans hp)
    have hd' : d.perform (.detach n) = d' := by rw [Document.perform, hd]; rfl
    rw [hd'] at hcontent
    refine ⟨he.varies, ?_⟩
    rw [Option.getD_some, he.varies.value_site h.toLinked hcontent,
      Content.toValue_omitting (h.keys_nodup p) (h.parts_nodup p) hc, h.value_eq p]
    intro x hx
    exact h.parts_not_above (Content.parts_omitting_subset hx)

end Sites

/-! ## Every change -/

inductive Edit where
  /-- The node becomes a copy of a node of another document. -/
  | replace (other : Document) (id : NodeId)
  /-- The node, an object, gets a property. -/
  | setProperty (key : String) (position : Option Position) (value : NodeId)
  | removeProperty (key : String)
  | renameProperty (old new : String)
  /-- The node, an array, gets a node at its end. -/
  | push (value : NodeId)
  /-- The node, an array, gets copies of the items of an array of another document at its end. -/
  | append (other : Document) (array : NodeId)
  /-- The node leaves its parent. -/
  | detach

namespace Edit

def run (d : Document) (n : NodeId) : Edit → Document
  | .replace other id => d.replace n (other.tree id)
  | .setProperty key position value => d.setProperty n key position value
  | .removeProperty key => (d.removeProperty? n key).getD d
  | .renameProperty old new => (d.renameProperty? n old new).getD d
  | .push value => d.push n value
  | .append other array => d.append n ((other.items array).map other.tree)
  | .detach => (d.detach? n).getD d

def Allowed (d : Document) (n : NodeId) : Edit → Prop
  | .replace other _ => other.WellFormed
  | .setProperty _ _ value => d.Attachable n value
  | .push value => d.Attachable n value
  | .append other _ => other.WellFormed
  | _ => True

/-- The change as a change of the document's value, at the location `l`. -/
def update (d : Document) (l : Location) : Edit → Value → Value
  | .replace other id => Value.modifyAt (fun _ => other.value id) l
  | .setProperty key _ value => Value.modifyAt (Value.setMember key (d.value value)) l
  | .removeProperty key => Value.modifyAt (Value.removeChild (.key key)) l
  | .renameProperty old new => Value.modifyAt (Value.renameMember old new) l
  | .push value => Value.modifyAt (Value.addItems [d.value value]) l
  | .append other array => Value.modifyAt (Value.addItems ((other.items array).map other.value)) l
  | .detach => Value.deleteAt l

end Edit

variable {n : NodeId} {e : Edit}

/-- But for a node that leaves its parent, a change is one of the node's own value. -/
theorem WellFormed.edit_revises (h : d.WellFormed) (hn : d.Holds n) (ha : e.Allowed d n) (hd : e ≠ .detach) :
    ∃ f, Revises d (e.run d n) n f ∧ ∀ l, e.update d l = Value.modifyAt f l := by
  cases e with
  | replace other id => exact ⟨_, h.replace_revises hn (ha.tree_keyed id), fun _ => rfl⟩
  | setProperty key position value => exact ⟨_, h.setProperty_revises position ha, fun _ => rfl⟩
  | removeProperty key => exact ⟨_, h.removeProperty_revises, fun _ => rfl⟩
  | renameProperty old new => exact ⟨_, h.renameProperty_revises, fun _ => rfl⟩
  | push value => exact ⟨_, h.push_revises ha, fun _ => rfl⟩
  | append other array =>
    have hk : ∀ t ∈ (other.items array).map other.tree, t.Keyed := fun t ht => by
      obtain ⟨item, -, rfl⟩ := List.mem_map.mp ht
      exact ha.tree_keyed item
    refine ⟨_, h.append_revises hn hk, fun l => ?_⟩
    rw [List.map_map]
    rfl
  | detach => exact absurd rfl hd

/-- Where a node that has left its parent was is nothing; the root has no place that it could leave. -/
theorem WellFormed.detach_refines (h : d.WellFormed) (l : Location) (hl : d.at? d.root l = some n) :
    ((d.detach? n).getD d).rootValue = d.rootValue.deleteAt l := by
  rcases List.eq_nil_or_concat l with rfl | ⟨above, s, rfl⟩
  · obtain rfl : d.root = n := Option.some.inj hl
    have hfree : d.detach? d.root = none := by rw [detach?, slot, h.root_free]
    rw [hfree]
    rfl
  · rw [List.concat_eq_append, at?_concat] at hl
    obtain ⟨owner, ho, hc⟩ := Option.bind_eq_some_iff.mp hl
    rw [List.concat_eq_append, Value.deleteAt_concat]
    exact (h.detach_revises hc).rootValue_at h.toLinked ho

/-- A node that cannot be reached leaves a parent that cannot be reached. -/
theorem WellFormed.detach_unseen (h : d.WellFormed) (hu : ¬ d.Under d.root n) :
    ((d.detach? n).getD d).rootValue = d.rootValue := by
  cases hp : d.parent n with
  | none =>
    have hfree : d.detach? n = none := by rw [detach?, slot, hp]
    rw [hfree]
    rfl
  | some owner =>
    obtain ⟨s, hs⟩ := Content.exists_child? (h.keys_nodup owner) (h.parent_iff.mp hp)
    exact (h.detach_revises hs).rootValue_eq h fun ho => hu (.head hp ho)

/-- A change to a node is the pure change of the document's value at the location of the node, and
    none where no location leads to the node. -/
theorem edit_refines (h : d.WellFormed) (hn : d.Holds n) (ha : e.Allowed d n) :
    (∀ l, d.at? d.root l = some n → (e.run d n).rootValue = e.update d l d.rootValue) ∧
      ((∀ l, d.at? d.root l ≠ some n) → (e.run d n).rootValue = d.rootValue) := by
  have hunder : (∀ l, d.at? d.root l ≠ some n) → ¬ d.Under d.root n := fun hno hu =>
    (h.exists_at? hu).elim hno
  by_cases hd : e = .detach
  · rw [hd]
    exact ⟨fun l hl => h.detach_refines l hl, fun hno => h.detach_unseen (hunder hno)⟩
  · obtain ⟨f, hr, hupdate⟩ := h.edit_revises hn ha hd
    refine ⟨fun l hl => ?_, fun hno => hr.rootValue_eq h (hunder hno)⟩
    rw [hupdate]
    exact hr.rootValue_at h.toLinked hl

def arrayAndLoose : Document := (ofValue (.object [("a", .array [])])).add (.ofValue (.scalar (.bool true))) none

theorem arrayAndLoose_wellFormed : arrayAndLoose.WellFormed :=
  (ofValue_wellFormed (by simp [Value.Keyed, Value.MembersKeyed, Value.ItemsKeyed])).add
    (Tree.keyed_ofValue _ (by simp [Value.Keyed]))

theorem arrayAndLoose_attachable : arrayAndLoose.Attachable ⟨1⟩ ⟨2⟩ where
  held := by decide
  free := rfl
  ne_root := by decide
  not_above := by
    intro hu
    rcases ReflTransGen.cases_head hu with e | ⟨owner, ho, hu⟩
    · cases e
    · obtain rfl : (⟨0⟩ : NodeId) = owner := Option.some.inj ho
      rcases ReflTransGen.cases_head hu with e | ⟨owner, ho, -⟩
      · cases e
      · cases ho

/-- The loose node is pushed to the array, and is then read there. -/
theorem loose_pushed_refines :
    (Edit.run arrayAndLoose ⟨1⟩ (.push ⟨2⟩)).rootValue = .object [("a", .array [.scalar (.bool true)])] :=
  (edit_refines arrayAndLoose_wellFormed (by decide) (e := .push ⟨2⟩) arrayAndLoose_attachable).1 [.key "a"] rfl

end Document

end Reshape
