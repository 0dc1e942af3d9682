/-
  Reshape.Proofs.Transform.NameLists — properties that are removed by a list of their names.

  A `remove` that is given an array of names takes the properties out one by one. A name may be
  missing from the object, or stand in the array again; then there is nothing to take out any more,
  which is no failure, only a warning. What comes of the whole array can so be told from the object
  as it was, without going through the names.

  - `Document.Stripped`: the object has exactly the members whose names are not among those listed,
    in their order, and the values of the others hang nowhere. Nothing else has changed. This leaves
    one document only (`Stripped.unique`), whatever the order in which the names are listed.
  - `Removal.inVain`: the names for which nothing was there, each with its place in the array.
  - `names_removed`: a transform that removes a list of names ends well, strips the object, and
    warns of the names that were in vain.

  The names are gone through from the first to the last, so what has been done so far is told by the
  names before, and the induction takes the last of them off.
-/

import Reshape.Proofs.Transform.Passing
import Reshape.Proofs.Transform.Running

namespace Reshape

variable {d d' d'' : Document} {node : NodeId} {names more : List String} {name : String}

namespace Document

/-! ## An object without some of its properties -/

/-- `d'` is `d` but for the properties of these names, which the object has lost. -/
structure Stripped (d : Document) (node : NodeId) (names : List String) (d' : Document) : Prop where
  root : d'.root = d.root
  size : d'.nodes.size = d.nodes.size
  position : ∀ id, d'.position id = d.position id
  content : d'.content node = .object ((d.members node).filter fun m => m.key ∉ names)
  elsewhere : ∀ id, id ≠ node → d'.content id = d.content id
  detached : ∀ m ∈ d.members node, m.key ∈ names → d'.parent m.value = none
  attached : ∀ id, (∀ m ∈ d.members node, m.key ∈ names → m.value ≠ id) → d'.parent id = d.parent id

namespace Stripped

theorem refl (ho : d.isObject node = true) : Stripped d node [] d where
  root := rfl
  size := rfl
  position _ := rfl
  content := by simp [content_of_isObject ho]
  elsewhere _ _ := rfl
  detached _ _ hk := nomatch hk
  attached _ _ := rfl

/-- Only names that the object has make a difference. -/
theorem congr (h : Stripped d node names d') (he : ∀ m ∈ d.members node, m.key ∈ more ↔ m.key ∈ names) :
    Stripped d node more d' where
  root := h.root
  size := h.size
  position := h.position
  content := by
    rw [h.content]
    exact congrArg _ (List.filter_congr fun m hm => by simp only [he m hm])
  elsewhere := h.elsewhere
  detached m hm hk := h.detached m hm ((he m hm).mp hk)
  attached id hid := h.attached id fun m hm hk => hid m hm ((he m hm).mpr hk)

theorem members_eq (h : Stripped d node names d') :
    d'.members node = (d.members node).filter fun m => m.key ∉ names :=
  members_of_object h.content

/-- What the object was and which names it has lost leave one document only. -/
theorem unique (h : Stripped d node names d') (h' : Stripped d node names d'') : d' = d'' := by
  have hparent : ∀ id, d'.parent id = d''.parent id := by
    intro id
    by_cases hid : ∃ m ∈ d.members node, m.key ∈ names ∧ m.value = id
    · obtain ⟨m, hm, hk, rfl⟩ := hid
      rw [h.detached m hm hk, h'.detached m hm hk]
    · have hnot : ∀ m ∈ d.members node, m.key ∈ names → m.value ≠ id := fun m hm hk e => hid ⟨m, hm, hk, e⟩
      rw [h.attached id hnot, h'.attached id hnot]
  have hcontent : ∀ id, d'.content id = d''.content id := by
    intro id
    by_cases e : id = node
    · rw [e, h.content, h'.content]
    · rw [h.elsewhere id e, h'.elsewhere id e]
  exact ext_of_nodes (h.root.trans h'.root.symm) (h.size.trans h'.size.symm) hcontent hparent fun id =>
    (h.position id).trans (h'.position id).symm

/-- A property is not there if it never was, or if it is gone already. -/
theorem get?_eq_none_iff (h : Stripped d node names d') :
    d'.get? node name = none ↔ name ∉ (d.members node).map Member.key ∨ name ∈ names := by
  rw [Document.get?_eq_none_iff, h.members_eq]
  simp only [List.mem_map, List.mem_filter, decide_eq_true_eq]
  constructor
  · intro hnone
    by_cases hn : name ∈ names
    · exact Or.inr hn
    · exact Or.inl fun ⟨m, hm, hk⟩ => hnone ⟨m, ⟨hm, hk ▸ hn⟩, hk⟩
  · rintro hor ⟨m, ⟨hm, hn⟩, rfl⟩
    exact hor.elim (fun hkeys => hkeys ⟨m, hm, rfl⟩) hn

/-- A name that is in vain makes no difference. -/
theorem absent (h : Stripped d node names d') (hg : d'.get? node name = none) :
    Stripped d node (names ++ [name]) d' := by
  refine h.congr fun m hm => ?_
  have hkey : m.key = name → m.key ∈ names := by
    rintro rfl
    exact (h.get?_eq_none_iff.mp hg).resolve_left fun hnot => hnot (List.mem_map_of_mem hm)
  rw [List.mem_append, List.mem_singleton]
  exact or_iff_left_of_imp hkey

/-- Taking a property out strips the object of one name more. -/
theorem remove (h : Stripped d node names d') (hd : d.Linked) (hg : d'.get? node name ≠ none) :
    Stripped d node (names ++ [name]) (d'.perform (.remove node name)) := by
  obtain ⟨part, hpart⟩ := Option.ne_none_iff_exists'.mp hg
  obtain ⟨m, hfound, rfl⟩ := get?_eq_some hpart
  have hmem := h.members_eq ▸ (Member.find?_mem hfound).1
  obtain ⟨hm, hnot⟩ : m ∈ d.members node ∧ m.key ∉ names := by simpa using hmem
  obtain rfl : m.key = name := (Member.find?_mem hfound).2
  have hnode : d'.Holds node := holds_of_isObject (isObject_of_get? hpart)
  have hvalue : d'.Holds m.value := by
    show m.value.index < d'.nodes.size
    rw [h.size]
    exact hd.parts_held (mem_parts_of_mem_members hm)
  have hkeys : ((d'.members node).map Member.key).Nodup := by
    rw [h.members_eq]
    exact (hd.keys_nodup node).sublist (List.filter_sublist.map _)
  rw [perform_remove hpart]
  refine ⟨h.root, by simpa using h.size, fun id => by simpa using h.position id, ?_, ?_, ?_, ?_⟩
  · rw [content_withParent, content_withContent, if_pos ⟨rfl, hnode⟩, Member.erase_eq_filter hkeys, h.members_eq,
      List.filter_filter]
    refine congrArg _ (List.filter_congr fun n _ => Bool.eq_iff_iff.mpr ?_)
    simp [and_comm]
  · intro id hne
    simpa [hne] using h.elsewhere id hne
  · intro n hn hkey
    rw [parent_release node _ hvalue]
    split
    · rfl
    · rename_i hne
      refine h.detached n hn ((List.mem_append.mp hkey).resolve_right fun hlast => hne ?_)
      exact congrArg _ (List.inj_on_of_nodup_map (hd.keys_nodup node) hn hm (List.mem_singleton.mp hlast))
  · intro id hid
    have hne : id ≠ m.value := fun e => hid m hm (List.mem_append_right _ List.mem_cons_self) e.symm
    rw [parent_release node _ hvalue, if_neg hne]
    exact h.attached id fun n hn hkey => hid n hn (List.mem_append_left _ hkey)

end Stripped

end Document

/-! ## The names in turn -/

namespace Removal

def named (name : String × Option Position) : Tree := ⟨name.2, .scalar (.string name.1)⟩

/-- The names for which there is no property, or none any more because they stand in the list before. -/
def inVain (keys : List String) (names : List (String × Option Position)) : List Warning :=
  (names.zipIdx.filter fun (name, i) => name.1 ∉ keys ∨ name.1 ∈ (names.take i).map Prod.fst).map
    fun (name, _) => ⟨name.1, name.2⟩

theorem inVain_concat (keys : List String) (names : List (String × Option Position))
    (name : String × Option Position) :
    inVain keys (names ++ [name]) =
      inVain keys names ++
        if name.1 ∉ keys ∨ name.1 ∈ names.map Prod.fst then [⟨name.1, name.2⟩] else [] := by
  have hbefore : (names.zipIdx.filter fun (n, i) => n.1 ∉ keys ∨ n.1 ∈ ((names ++ [name]).take i).map Prod.fst) =
      names.zipIdx.filter fun (n, i) => n.1 ∉ keys ∨ n.1 ∈ (names.take i).map Prod.fst :=
    List.filter_congr fun ⟨n, i⟩ hn => by
      have hi : i < names.length := by simpa using (List.mem_zipIdx hn).2.1
      simp only [List.take_append_of_le_length hi.le]
  rw [inVain, List.zipIdx_append, List.filter_append, List.map_append, hbefore, ← inVain]
  simp only [Nat.zero_add, List.zipIdx_singleton, List.filter_singleton, List.take_left, Bool.cond_decide]
  split <;> rfl

variable {s : Session}

/-- A name that is given its turn: its property is taken out, or it was in vain and is warned about. -/
theorem exec_removeProperty (h : d.Stripped node names s.document) (hd : d.Linked) (name : String)
    (position : Option Position) :
    ∃ s', (removeProperty node name position).exec s = (.ok .proceed, s') ∧
      d.Stripped node (names ++ [name]) s'.document ∧
      s'.warnings = s.warnings ++
        if name ∉ (d.members node).map Member.key ∨ name ∈ names then [⟨name, position⟩] else [] := by
  rw [removeProperty, Run.exec_bind_ok (Run.exec_document s)]
  cases hg : s.document.get? node name with
  | none =>
    refine ⟨s.missed ⟨name, position⟩, rfl, h.absent hg, ?_⟩
    rw [Session.warnings_missed, if_pos (h.get?_eq_none_iff.mp hg)]
  | some part =>
    have hthere : s.document.get? node name ≠ none := by simp [hg]
    refine ⟨s.changed (.remove node name), rfl, h.remove hd hthere, ?_⟩
    rw [Session.warnings_changed, if_neg fun hvain => hthere (h.get?_eq_none_iff.mpr hvain), List.append_nil]

/-- A list of names strips the object of them, and those in vain are warned about. -/
theorem exec_names (nested : Tree → NodeId → Run Unit) (hd : s.document.Linked)
    (ho : s.document.isObject node = true) (names : List (String × Option Position)) :
    ∃ s', (Verb.remove.actAll nested node (names.map named)).exec s = (.ok .proceed, s') ∧
      s.document.Stripped node (names.map Prod.fst) s'.document ∧
      s'.warnings = s.warnings ++ inVain ((s.document.members node).map Member.key) names := by
  induction names using List.reverseRecOn with
  | nil => exact ⟨s, rfl, .refl ho, (List.append_nil _).symm⟩
  | append_singleton before name ih =>
    obtain ⟨mid, hmid, hstripped, hwarned⟩ := ih
    obtain ⟨s', hlast, hstripped', hwarned'⟩ := exec_removeProperty hstripped hd name.1 name.2
    refine ⟨s', ?_, ?_, ?_⟩
    · rw [List.map_append, Verb.actAll_append, Run.exec_bind_ok hmid, List.map_singleton]
      show (Verb.remove.actAll nested node [named name]).exec mid = _
      rw [Verb.actAll_singleton]
      exact hlast
    · rw [List.map_append]
      exact hstripped'
    · rw [hwarned', hwarned, inVain_concat, List.append_assoc]

end Removal

/-! ## Transforms that remove a list of names -/

section

variable {s : Session} {t : Tree} {names : List (String × Option Position)}

/-- The transform has one member, by which properties are removed whose names are in an array. -/
def Tree.RemovesNames (t : Tree) (names : List (String × Option Position)) : Prop :=
  ∃ list, t.StatesOnly .remove list ∧ list.content = .array (names.map Removal.named)

theorem Tree.RemovesNames.exec (ht : t.RemovesNames names) (h : s.document.Linked)
    (ho : s.document.isObject node = true) :
    ∃ s', (applyTransform t node).exec s = (.ok (), s') ∧
      s.document.Stripped node (names.map Prod.fst) s'.document ∧
      s'.warnings = s.warnings ++ Removal.inVain ((s.document.members node).map Member.key) names := by
  obtain ⟨list, hlist, hnames⟩ := ht
  obtain ⟨s', hrun, hrest⟩ := Removal.exec_names applyTransform h ho names
  refine ⟨s', ?_, hrest⟩
  have hitems : list.items = names.map Removal.named := by rw [Tree.items, hnames]; rfl
  have harray : list.isArray = true := by rw [Tree.isArray, hnames]; rfl
  rw [applyTransform_only hlist, hlist.operands_eq_items harray, hitems, Run.exec_bind_ok hrun]
  rfl

/-- A list of names is removed without fail: the object loses the properties of these names and nothing else
    changes, each name that is in vain is warned about, and the document is the same for the names in any order. -/
theorem names_removed (h : s.document.WellFormed) (ho : s.document.isObject node = true) (ht : t.RemovesNames names) :
    ∃ s', (applyTransform t node).exec s = (.ok (), s') ∧
      s.document.Stripped node (names.map Prod.fst) s'.document ∧
      s'.warnings = s.warnings ++ Removal.inVain ((s.document.members node).map Member.key) names ∧
      ∀ u others, u.RemovesNames others → (others.map Prod.fst).Perm (names.map Prod.fst) →
        ((applyTransform u node).exec s).2.document = s'.document := by
  obtain ⟨s', hrun, hstripped, hwarned⟩ := ht.exec h.toLinked ho
  refine ⟨s', hrun, hstripped, hwarned, fun u others hu hperm => ?_⟩
  obtain ⟨s'', hrun', hstripped', -⟩ := hu.exec h.toLinked ho
  rw [hrun']
  exact hstripped'.unique (hstripped.congr fun m _ => hperm.mem_iff)

end

def threeUnder : Document :=
  .ofValue (.object [("o", .object [("a", .object [("d", .array [.scalar .null])]), ("b", .ofString "a"),
    ("c", .scalar (.bool true))])])

def fourNames : List (String × Option Position) :=
  [("c", some ⟨2, 18⟩), ("z", some ⟨2, 23⟩), ("a", some ⟨3, 4⟩), ("c", some ⟨3, 9⟩)]

def removalOf (names : List (String × Option Position)) : Tree :=
  ⟨none, .object [⟨"@jdt.remove", none, ⟨none, .array (names.map Removal.named)⟩⟩]⟩

/-- Two of the names are in vain, and one property is left, as it is if the names come in reverse. -/
theorem four_names_removed :
    ∃ s', (applyTransform (removalOf fourNames) ⟨1⟩).exec ⟨threeUnder, []⟩ = (.ok (), s') ∧
      s'.document.content ⟨1⟩ = .object [⟨"b", none, ⟨5⟩⟩] ∧
      s'.warnings = [⟨"z", some ⟨2, 23⟩⟩, ⟨"c", some ⟨3, 9⟩⟩] ∧
      ((applyTransform (removalOf fourNames.reverse) ⟨1⟩).exec ⟨threeUnder, []⟩).2.document = s'.document := by
  have hformed : threeUnder.WellFormed := Document.ofValue_wellFormed
    (by simp [Value.Keyed, Value.MembersKeyed, Value.ItemsKeyed, Value.ofString])
  have hremoves : ∀ names, (removalOf names).RemovesNames names := fun names =>
    ⟨_, ⟨_, _, rfl, by decide +kernel⟩, rfl⟩
  have hobject : threeUnder.isObject ⟨1⟩ = true := by decide
  obtain ⟨s', hrun, hstripped, hwarned, hsame⟩ :=
    names_removed (s := ⟨threeUnder, []⟩) hformed hobject (hremoves fourNames)
  refine ⟨s', hrun, hstripped.content.trans (by decide +kernel), hwarned.trans (by decide +kernel), ?_⟩
  exact hsame _ _ (hremoves fourNames.reverse) (fourNames.reverse_perm.map _)

end Reshape
