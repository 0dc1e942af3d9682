/-
  Reshape.Proofs.Document.Changing — every change keeps a document well-formed.

  Renaming and overwriting complete what `Editing` says of the other changes, and
  `perform_edited` says it of all six: a change that fits the document exchanges the parts of
  its site and nothing else.

  - `Change.Fits`: the node that the change is asked of is in use, and what it copies has
    unique keys.
  - `tree_overwrite`, `tree_append`, `insert_members`: what the changed node reads as.
-/

import Reshape.Proofs.Document.Editing

namespace Reshape

namespace Change

def target : Change → NodeId
  | .overwrite target _ => target
  | .append array _ => array
  | .detach target => target
  | .remove object _ => object
  | .rename target _ => target
  | .insert object _ => object

def copies : Change → List Tree
  | .overwrite _ t => [t]
  | .append _ items => items
  | .insert _ m => [m.value]
  | _ => []

/-- The node whose parts a change exchanges. A node that leaves its parent, or whose property
    gets another name, is itself left alone. -/
def site (d : Document) : Change → NodeId
  | .detach target => (d.parent target).getD target
  | .rename target _ => (d.parent target).getD target
  | c => c.target

structure Fits (d : Document) (c : Change) : Prop where
  held : d.Holds c.target
  keyed : ∀ t ∈ c.copies, t.Keyed

end Change

namespace Document

/-! ## Renaming -/

/-- A property gets a name that the object does not use yet. -/
theorem WellFormed.rekey_edited {d : Document} (h : d.WellFormed) {object : NodeId}
    (hobj : d.isObject object = true) {old new : String}
    (hnew : new ∉ (d.members object).map Member.key) :
    Edited d (d.withContent object (.object (Member.rekey old new (d.members object)))) object := by
  have ho := holds_of_isObject hobj
  have hparts := parts_of_object (content_of_isObject hobj)
  set d' := d.withContent object (.object (Member.rekey old new (d.members object))) with hd'
  have hcontent : d'.content object = .object (Member.rekey old new (d.members object)) := by simp [hd', ho]
  have hp : d'.parts object = d.parts object := by
    rw [parts_of_object hcontent, Member.values_rekey, hparts]
  refine ⟨?_, by simp [hd'], rfl, fun _ hne => by simp [hd', hne], fun {id} _ => by simp [hd'],
    fun {id owner} hn hpar => ?_⟩
  · refine h.relink object rfl (by simp [hd']) (fun id hid => by simp [hd', hid]) ?_ ?_ ?_ ?_
    · rw [hp]; exact h.parts_nodup object
    · rw [members_of_object hcontent]
      exact Member.nodup_keys_rekey (h.keys_nodup object) hnew
    · intro part hpart
      rw [hp] at hpart
      exact Or.inl hpart
    · intro id
      rw [hp]
      by_cases hm : id ∈ d.parts object
      · simp [hd', hm, h.parent_iff.mpr hm]
      · simp [hd', hm]
  · simp only [hd', parent_withContent] at hpar
    exact absurd (holds_of_parent hpar) hn

/-- The object without the property that is in the way of a new name. -/
theorem WellFormed.cleared {d : Document} (h : d.WellFormed) {object : NodeId}
    (hobj : d.isObject object = true) (new : String) :
    Edited d ((d.removeProperty? object new).getD d) object ∧
      ((d.removeProperty? object new).getD d).isObject object = true ∧
      new ∉ (((d.removeProperty? object new).getD d).members object).map Member.key := by
  have hc := content_of_isObject hobj
  have ho := holds_of_isObject hobj
  cases hd : d.removeProperty? object new with
  | none =>
    refine ⟨.refl h object, hobj, ?_⟩
    have : Member.find? new (d.members object) = none := by
      simpa [removeProperty?, hc] using hd
    exact Member.find?_eq_none_iff.mp this
  | some d' =>
    have he := h.removeProperty_edited hd
    obtain ⟨m, -, hm, rfl⟩ := removeProperty?_eq_some hd
    obtain ⟨before, after, hms, rfl, hb⟩ := Member.find?_split hm
    have hkeys := h.keys_nodup object
    rw [hms, List.map_append, List.map_cons, List.nodup_append, List.nodup_cons] at hkeys
    refine ⟨he, by simp [isObject, ho, Content.isObject], ?_⟩
    have hcontent : ((d.withContent object (.object (Member.erase m.key (d.members object)))).withParent
        m.value none).content object = .object (Member.erase m.key (d.members object)) := by simp [ho]
    rw [Option.getD_some, members_of_object hcontent, hms, Member.erase_split hb, List.map_append,
      List.mem_append, not_or]
    exact ⟨hb, hkeys.2.1.1⟩

/-- A property gets another name, and another property of that name is dropped. -/
theorem WellFormed.renameProperty_edited {d d' : Document} (h : d.WellFormed) {object : NodeId}
    {old new : String} (hd : d.renameProperty? object old new = some d') :
    Edited d d' object ∧
      d'.parent = if old = new then d.parent else ((d.removeProperty? object new).getD d).parent := by
  unfold renameProperty? at hd
  split at hd
  · cases hd
  · rename_i v hv
    split at hd
    · obtain rfl := Option.some.inj hd
      rename_i e
      exact ⟨.refl h object, by rw [if_pos e]⟩
    · rename_i e
      obtain rfl := Option.some.inj hd
      obtain ⟨hcl, hobj, hnew⟩ := h.cleared (isObject_of_get? hv) new
      refine ⟨hcl.trans (hcl.wellFormed.rekey_edited hobj hnew), ?_⟩
      rw [if_neg e]
      funext x
      exact parent_withContent ..

/-- The property that holds a node gets another name; the node stays in its parent. -/
theorem WellFormed.renameHolder_edited {d d' : Document} (h : d.WellFormed) {target : NodeId}
    {name : String} (hd : d.renameHolder? target name = some d') :
    ∃ owner, d.parent target = some owner ∧ Edited d d' owner ∧ d'.parent target = some owner ∧
      ∀ x, d'.parent x = d.parent x ∨ d'.parent x = none := by
  unfold renameHolder? at hd
  split at hd
  · rename_i object key hs
    obtain ⟨hp, m, hm, rfl⟩ := h.slot_property hs
    obtain rfl := Option.some.inj hd
    refine ⟨object, hp, ?_⟩
    cases hr : d.renameProperty? object key name with
    | none => exact ⟨.refl h object, hp, fun _ => Or.inl rfl⟩
    | some d'' =>
      obtain ⟨he, hpar⟩ := h.renameProperty_edited hr
      refine ⟨he, ?_⟩
      show d''.parent m.value = some object ∧ ∀ x, d''.parent x = d.parent x ∨ d''.parent x = none
      rw [hpar]
      split
      · exact ⟨hp, fun _ => Or.inl rfl⟩
      · rename_i hne
        cases hc : d.removeProperty? object name with
        | none => exact ⟨hp, fun _ => Or.inl rfl⟩
        | some d''' =>
          -- What is dropped stands under another key, so it is another node.
          obtain ⟨n, hms, hn, rfl⟩ := removeProperty?_eq_some hc
          have hvals : ((d.members object).map Member.value).Nodup :=
            parts_of_object hms ▸ h.parts_nodup object
          have hmn : m.value ≠ n.value := by
            intro e
            have := List.inj_on_of_nodup_map hvals (Member.find?_mem hm).1 (Member.find?_mem hn).1 e
            exact hne ((Member.find?_mem hm).2.symm.trans (this ▸ (Member.find?_mem hn).2))
          refine ⟨by simp [hmn, hp], fun x => ?_⟩
          simp only [Option.getD_some, parent_withParent, parent_withContent]
          split
          · exact Or.inr rfl
          · exact Or.inl rfl
  · cases hd

/-! ## Overwriting -/

section Overwrite

variable {d : Document} {target : NodeId} {t : Tree}

theorem replace_eq : d.replace target t =
    ((d.orphan (d.parts target)).store (t.content.nodes target d.nodes.size)).modify target fun n =>
      { n with content := t.content.ids d.nodes.size, position := t.position } := by
  simp only [replace, parts, size_orphan]

theorem size_replace :
    (d.replace target t).nodes.size = d.nodes.size + (t.content.nodes target d.nodes.size).length := by
  simp [replace_eq, size_orphan]

theorem root_replace : (d.replace target t).root = d.root := by
  simp [replace_eq, root_orphan]

theorem holds_orphan (ids : List NodeId) {id : NodeId} : (d.orphan ids).Holds id ↔ d.Holds id := by
  simp [Holds, size_orphan]

/-- The node itself has the tree's content and position, and keeps its parent. -/
theorem node_replace_self (ht : d.Holds target) :
    (d.replace target t).node target =
      ⟨t.content.ids d.nodes.size, (d.orphan (d.parts target)).parent target, t.position⟩ := by
  have h0 := node_store_held (t.content.nodes target d.nodes.size) ((holds_orphan (d.parts target)).mpr ht)
  have h1 : ((d.orphan (d.parts target)).store (t.content.nodes target d.nodes.size)).Holds target := by
    simp only [Holds, size_store, size_orphan] at ht ⊢; omega
  rw [replace_eq, node_modify, if_pos ⟨rfl, h1⟩, h0]
  rfl

/-- Every other node is as before, but that the parts of the node have no parent. -/
theorem node_replace_held {id : NodeId} (hh : d.Holds id) (hne : id ≠ target) :
    (d.replace target t).node id = (d.orphan (d.parts target)).node id := by
  rw [replace_eq, node_modify, if_neg fun e => hne e.1, node_store_held _ ((holds_orphan _).mpr hh)]

/-- What is stored anew is laid out from the first free handle on. -/
theorem node_replace_laid {id : NodeId} {n : Node} (ht : d.Holds target)
    (hl : laidAt? d.nodes.size (t.content.nodes target d.nodes.size) id = some n) :
    (d.replace target t).node id = n := by
  have hb := (laidAt?_bounds hl).1
  have hne : id ≠ target := by
    rintro rfl
    simp only [Holds] at ht; omega
  rw [replace_eq, node_modify, if_neg fun e => hne e.1]
  exact node_store_laid (by rw [size_orphan]; exact hl)

theorem content_replace_self (ht : d.Holds target) :
    (d.replace target t).content target = t.content.ids d.nodes.size := by
  rw [content, node_replace_self ht]

theorem content_replace {id : NodeId} (hh : d.Holds id) (hne : id ≠ target) :
    (d.replace target t).content id = d.content id := by
  rw [content, node_replace_held hh hne]
  exact content_orphan d id (d.parts target)

theorem position_replace {id : NodeId} (hh : d.Holds id) (hne : id ≠ target) :
    (d.replace target t).position id = d.position id := by
  rw [position, node_replace_held hh hne]
  exact position_orphan d id (d.parts target)

theorem parent_replace {id : NodeId} (ht : d.Holds target) (hh : d.Holds id) :
    (d.replace target t).parent id = if id ∈ d.parts target then none else d.parent id := by
  rw [← parent_orphan]
  by_cases hne : id = target
  · subst hne
    rw [parent, node_replace_self ht]
  · rw [parent, node_replace_held hh hne, parent]

/-- A node without its parts. -/
theorem Linked.emptied (h : d.Linked) (ht : d.Holds target) :
    ((d.orphan (d.parts target)).withContent target (.scalar .null)).Linked := by
  have h0 : (d.orphan (d.parts target)).Holds target := by simpa [Holds, size_orphan] using ht
  have hc : ((d.orphan (d.parts target)).withContent target (.scalar .null)).content target =
      .scalar .null := by
    simp [h0]
  have hp : ((d.orphan (d.parts target)).withContent target (.scalar .null)).parts target = [] := by
    rw [parts, hc]; rfl
  refine h.relink target (by simp [size_orphan]) (fun id hid => by simp [hid, content_orphan]) ?_ ?_ ?_ ?_
  · rw [hp]; exact List.nodup_nil
  · rw [members, hc]; exact List.nodup_nil
  · intro part hpart
    rw [hp] at hpart; cases hpart
  · intro id
    rw [hp, parent_withContent, parent_orphan]
    by_cases hm : id ∈ d.parts target <;> simp [hm]

/-- A node takes over a tree; its parts become free. -/
theorem WellFormed.overwrite_edited (h : d.WellFormed) (ht : d.Holds target) (hk : t.Keyed) :
    Edited d (d.replace target t) target := by
  have hemptied := h.toLinked.emptied ht
  set e := (d.orphan (d.parts target)).withContent target (.scalar .null) with he
  have hes : e.nodes.size = d.nodes.size := by simp [he, size_orphan]
  have heh : ∀ {id}, e.Holds id ↔ d.Holds id := by simp [Holds, hes]
  have hl : Laid (some target) e.nodes.size (t.content.nodes target d.nodes.size)
      (t.content.ids d.nodes.size).parts := by
    rw [hes]; exact laid_content target d.nodes.size t hk
  have hlinked : (d.replace target t).Linked := by
    refine Grafted.linked ⟨hl, by rw [size_replace, hes], ?_, ?_, ?_, ?_⟩ hemptied
    · intro id hh hne
      have hne' : id ≠ target := fun h => hne (h ▸ rfl)
      rw [content_replace (heh.mp hh) hne']
      simp [he, hne', content_orphan]
    · intro id hh
      rw [parent_replace ht (heh.mp hh)]
      simp [he, parent_orphan]
    · intro id n hn
      rw [hes] at hn
      exact node_replace_laid ht hn
    · intro id hid
      obtain rfl := Option.some.inj hid
      have hc := content_replace_self (t := t) ht
      refine ⟨heh.mpr ht, ?_, by rw [parts, hc], ?_⟩
      · simp [parts, he, (holds_orphan _).mpr ht, Content.parts]
      · rw [members, hc, keys_ids]
        exact hk.keys
  refine ⟨⟨hlinked, ?_, ?_⟩, ?_, root_replace, ?_, ?_, ?_⟩
  · have := h.root_held
    simp only [Holds, root_replace, size_replace] at this ⊢; omega
  · rw [root_replace, parent_replace ht h.root_held, h.root_free]; simp
  · rw [size_replace]; omega
  · intro id hh hne
    exact ⟨content_replace hh hne, position_replace hh hne⟩
  · intro id hh
    rw [parent_replace ht hh]
    by_cases hm : id ∈ d.parts target
    · exact Or.inr ⟨h.parent_iff.mpr hm, by simp [hm]⟩
    · simp [hm]
  · intro id owner hn hp
    -- A stored node hangs under the target, or under a node stored before it.
    by_cases ho : owner = target
    · exact Or.inr ho
    · refine Or.inl fun hho => ?_
      have hmem := hlinked.parent_iff.mp hp
      rw [parts_eq_of_content (content_replace hho ho)] at hmem
      exact hn (h.parts_held hmem)

/-- A node that took over a tree reads as the tree. -/
theorem tree_overwrite (h : d.WellFormed) (ht : d.Holds target) (hk : t.Keyed) :
    (d.replace target t).tree target = t := by
  have hl := (h.overwrite_edited ht hk).wellFormed.toLinked
  have hparts := contentTrees_laid hl target d.nodes.size t.content fun id n hn => node_replace_laid ht hn
  rw [hl.tree_eq, content_replace_self ht, hparts, position, node_replace_self ht]
  cases t
  rfl

end Overwrite

/-! ## Every change -/

/-- A change that fits a well-formed document exchanges the parts of its site and nothing else. -/
theorem WellFormed.perform_edited {d : Document} (h : d.WellFormed) {c : Change} (hc : c.Fits d) :
    Edited d (d.perform c) (c.site d) := by
  cases c with
  | overwrite target t => exact h.overwrite_edited hc.held (hc.keyed t (List.mem_singleton.mpr rfl))
  | append array items => exact h.append_edited hc.held hc.keyed
  | remove object key => exact h.remove_edited object key
  | insert object m => exact h.insert_edited hc.held (hc.keyed m.value (List.mem_singleton.mpr rfl))
  | detach target =>
    show Edited d ((d.detach? target).getD d) ((d.parent target).getD target)
    cases hd : d.detach? target with
    | none => exact .refl h _
    | some d' =>
      obtain ⟨owner, hp, he, -⟩ := h.detach_edited hd
      rw [hp]; exact he
  | rename target name =>
    show Edited d ((d.renameHolder? target name).getD d) ((d.parent target).getD target)
    cases hd : d.renameHolder? target name with
    | none => exact .refl h _
    | some d' =>
      obtain ⟨owner, hp, he, -⟩ := h.renameHolder_edited hd
      rw [hp]; exact he

/-- A change to a well-formed document leaves it well-formed. -/
theorem WellFormed.perform {d : Document} (h : d.WellFormed) {c : Change} (hc : c.Fits d) :
    (d.perform c).WellFormed :=
  (h.perform_edited hc).wellFormed

/-- A node that leaves its parent, and nothing else. -/
theorem WellFormed.parent_detach {d : Document} (h : d.WellFormed) (target x : NodeId) :
    (d.perform (.detach target)).parent x = if x = target then none else d.parent x := by
  show ((d.detach? target).getD d).parent x = _
  cases hd : d.detach? target with
  | none =>
    by_cases e : x = target
    · subst e; simpa using h.detach?_eq_none hd
    · simp [e]
  | some d' =>
    obtain ⟨-, -, -, hpar⟩ := h.detach_edited hd
    exact hpar x

/-- A node whose property gets another name stays where it is; others at most lose their parent. -/
theorem WellFormed.parent_rename {d : Document} (h : d.WellFormed) (target : NodeId) (name : String) :
    (d.perform (.rename target name)).parent target = d.parent target ∧
      ∀ x, (d.perform (.rename target name)).parent x = d.parent x ∨
        (d.perform (.rename target name)).parent x = none := by
  show ((d.renameHolder? target name).getD d).parent target = d.parent target ∧
    ∀ x, ((d.renameHolder? target name).getD d).parent x = d.parent x ∨
      ((d.renameHolder? target name).getD d).parent x = none
  cases hd : d.renameHolder? target name with
  | none => exact ⟨rfl, fun _ => Or.inl rfl⟩
  | some d' =>
    obtain ⟨owner, hp, -, hpar, hsheds⟩ := h.renameHolder_edited hd
    exact ⟨hpar.trans hp.symm, hsheds⟩

/-- What is stored by a change hangs below the node of the change, or nowhere. -/
theorem WellFormed.perform_fresh {d : Document} (h : d.WellFormed) {c : Change} (hc : c.Fits d)
    {id owner : NodeId} (hn : ¬ d.Holds id) (hp : (d.perform c).parent id = some owner) :
    ¬ d.Holds owner ∨ owner = c.target := by
  have he := h.perform_edited hc
  cases c with
  | detach target =>
    rw [h.parent_detach] at hp
    split at hp
    · cases hp
    · exact absurd (holds_of_parent hp) hn
  | rename target name =>
    rcases (h.parent_rename target name).2 id with e | e
    · exact absurd (holds_of_parent (e ▸ hp)) hn
    · rw [e] at hp; cases hp
  | _ => exact he.fresh_parent hn hp

/-! ## What a changed node reads as -/

namespace Beside

variable {d e : Document} {t : Tree} (g : Beside d e t) (h : d.WellFormed)
include g h

/-- A tree at the end of an array is read after the items that were there. -/
theorem tree_push {array : NodeId} (ha : d.isArray array = true) :
    (e.push array d.nextId).isArray array = true ∧
      ((e.push array d.nextId).tree array).items = (d.tree array).items ++ [t] := by
  have hh := holds_of_isArray ha
  have hstored := g.edited array
  have he := g.push_edited h hh
  have hc : e.content array = .array (d.items array) := (g.content_eq hh).trans (content_of_isArray ha)
  have hpush : e.push array d.nextId =
      (e.withContent array (.array (d.items array ++ [d.nextId]))).withParent d.nextId (some array) := by
    simp [Document.push, hc]
  have hcontent : (e.push array d.nextId).content array = .array (d.items array ++ [d.nextId]) := by
    rw [hpush]; simp [hstored.holds hh]
  refine ⟨by simp [isArray, hcontent, Content.isArray], ?_⟩
  -- Neither the tree nor an old item has the array under it, so each reads as it did.
  have hnew : (e.push array d.nextId).tree d.nextId = t := by
    refine Eq.trans ?_ g.reads
    refine tree_congr hstored.wellFormed.toLinked he.wellFormed.toLinked d.nextId fun y hy => ?_
    have hne : y ≠ array := fun hy' => g.not_under h hh (hy' ▸ hy)
    rw [hpush]
    simp [hne]
  rw [he.wellFormed.toLinked.tree_items, h.toLinked.tree_items]
  simp only [items, hcontent, Content.items, List.map_append, List.map_cons, List.map_nil, hnew]
  congr 1
  refine List.map_congr_left fun x hx => ?_
  have hmem : x ∈ d.parts array := by rw [parts_of_array (content_of_isArray ha)]; exact hx
  exact he.tree_eq h.toLinked (h.parts_held hmem) (h.not_under_part hmem)

/-- A tree becomes a property of an object, in its place or at the end, and reads as before. -/
theorem setProperty_members {object : NodeId} (ho : d.isObject object = true) (key : String)
    (position : Option Position) :
    (e.setProperty object key position d.nextId).content object =
        .object (Member.put key position d.nextId (d.members object)) ∧
      (e.setProperty object key position d.nextId).tree d.nextId = t := by
  have hh := holds_of_isObject ho
  have hstored := g.edited object
  have he := g.setProperty_edited h hh key position
  have hc : e.content object = .object (d.members object) := (g.content_eq hh).trans (content_of_isObject ho)
  have hcontent := content_setProperty key position d.nextId hc
  refine ⟨(hcontent object).trans (if_pos rfl), ?_⟩
  calc (e.setProperty object key position d.nextId).tree d.nextId = e.tree d.nextId :=
        tree_congr hstored.wellFormed.toLinked he.wellFormed.toLinked d.nextId fun y hy => by
          have hne : y ≠ object := fun hy' => g.not_under h hh (hy' ▸ hy)
          exact ⟨(hcontent y).trans (if_neg hne), position_setProperty ..⟩
    _ = t := g.reads

end Beside

/-- Copies at the end of an array are read after the items that were there. -/
theorem WellFormed.tree_append {d : Document} (h : d.WellFormed) {array : NodeId}
    (ha : d.isArray array = true) {items : List Tree} (hi : ∀ t ∈ items, t.Keyed) :
    (d.append array items).isArray array = true ∧
      ((d.append array items).tree array).items = (d.tree array).items ++ items := by
  induction items generalizing d with
  | nil => exact ⟨ha, (List.append_nil _).symm⟩
  | cons t rest ih =>
    have ht := hi t List.mem_cons_self
    have he := h.pushCopy_edited (holds_of_isArray ha) ht
    obtain ⟨ha', hitems⟩ := (h.add_beside ht).tree_push h ha
    obtain ⟨ha'', hrest⟩ := ih he.wellFormed ha' fun u hu => hi u (List.mem_cons_of_mem _ hu)
    refine ⟨ha'', ?_⟩
    show (((((d.add t none).push array d.nextId)).append array rest).tree array).items = _
    rw [hrest, hitems, List.append_assoc]
    rfl

/-- A copy becomes a property of an object, in its place or at the end, and reads as what was copied. -/
theorem WellFormed.insert_members {d : Document} (h : d.WellFormed) {object : NodeId}
    (ho : d.isObject object = true) {m : Member Tree} (hm : m.value.Keyed) :
    (d.perform (.insert object m)).content object =
        .object (Member.put m.key m.position d.nextId (d.members object)) ∧
      (d.perform (.insert object m)).tree d.nextId = m.value :=
  (h.add_beside hm).setProperty_members h ho m.key m.position

end Document

end Reshape
