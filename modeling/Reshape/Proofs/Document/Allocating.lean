/-
  Reshape.Proofs.Document.Allocating — the nodes of a text, stored one by one.

  `Document.parse` lays out the tree that a text says once equal keys are merged. Told step by step
  (`allocate`), each node of the text is stored as it comes, also what stands under a key that comes
  again. For a node a placeholder is stored first, and then its parts behind it, which name it as
  their parent at once. An array lists its items when all of them are stored. An object starts out
  without members and is given them one after the other, so that what a key held before is let go
  when the key comes again; it stays in the store and hangs nowhere.

  While its parts are being stored a node has parts that it does not list yet. No step depends on
  that (`allocate_modify`), and the work comes to storing each part where it hangs nowhere and then
  attaching it (`allocateMembers_cons`, `allocateItems_eq`). Told so, every step keeps the document
  well-formed.

  - `allocate_beside`: a tree that is stored step by step reads as the tree with equal keys merged,
    and nothing that was there before changes.
  - `parse_allocated`: the two ways to lay out a text come to documents that read alike, and whose
    nodes below the root are counterparts.
-/

import Reshape.Proofs.Document.Copying
import Reshape.Proofs.Document.Likeness

namespace Reshape.Document

/-! ## Step by step -/

mutual

/-- Stores the nodes of a tree, each before its parts. -/
def allocate (parent : Option NodeId) (d : Document) : Tree → Document
  | ⟨position, .scalar s⟩ => (d.store [⟨.scalar .null, parent, position⟩]).withContent d.nextId (.scalar s)
  | ⟨position, .array items⟩ =>
    let filled := allocateItems d.nextId (d.store [⟨.scalar .null, parent, position⟩]) items
    filled.2.withContent d.nextId (.array filled.1)
  | ⟨position, .object members⟩ =>
    allocateMembers d.nextId ((d.store [⟨.scalar .null, parent, position⟩]).withContent d.nextId (.object [])) members
termination_by structural t => t

def allocateItems (owner : NodeId) (d : Document) : List Tree → List NodeId × Document
  | [] => ([], d)
  | t :: rest =>
    let more := allocateItems owner (allocate (some owner) d t) rest
    (d.nextId :: more.1, more.2)
termination_by structural items => items

def allocateMembers (owner : NodeId) (d : Document) : List (Member Tree) → Document
  | [] => d
  | ⟨key, position, t⟩ :: rest =>
    allocateMembers owner ((allocate (some owner) d t).setProperty owner key position d.nextId) rest
termination_by structural members => members

end

mutual

theorem size_allocate (parent : Option NodeId) (d : Document) (t : Tree) :
    (d.allocate parent t).nodes.size = d.nodes.size + t.size := by
  match t with
  | ⟨_, .scalar _⟩ => simp [allocate, Tree.size]
  | ⟨_, .array items⟩ => simp [allocate, Tree.size, size_allocateItems _ _ items, Nat.add_assoc]
  | ⟨_, .object members⟩ => simp [allocate, Tree.size, size_allocateMembers _ _ members, Nat.add_assoc]

theorem size_allocateItems (owner : NodeId) (d : Document) (items : List Tree) :
    (d.allocateItems owner items).2.nodes.size = d.nodes.size + Tree.itemsSize items := by
  match items with
  | [] => rfl
  | t :: rest =>
    simp [allocateItems, Tree.itemsSize, size_allocateItems _ _ rest, size_allocate _ _ t, Nat.add_assoc]

theorem size_allocateMembers (owner : NodeId) (d : Document) (members : List (Member Tree)) :
    (d.allocateMembers owner members).nodes.size = d.nodes.size + Tree.membersSize members := by
  match members with
  | [] => rfl
  | ⟨_, _, t⟩ :: rest =>
    simp [allocateMembers, Tree.membersSize, size_allocateMembers _ _ rest, size_setProperty, size_allocate _ _ t,
      Nat.add_assoc]

end

theorem holds_allocate {d : Document} {x : NodeId} (parent : Option NodeId) (t : Tree) (hx : d.Holds x) :
    (d.allocate parent t).Holds x := by
  simp only [Holds, size_allocate] at hx ⊢
  omega

/-! ## A node that was there before -/

section Modify

variable {d : Document} {x y : NodeId} {f g : Node → Node}

/-- Changes to two nodes, or changes to one that do not interfere, can be made in either order. -/
theorem modify_comm (h : x = y → ∀ n, g (f n) = f (g n)) :
    (d.modify x f).modify y g = (d.modify y g).modify x f := by
  refine congrArg (Document.mk · d.root) (Array.ext_getElem? fun i => ?_)
  simp only [modify, Array.getElem?_modify]
  by_cases hx : x.index = i
  · by_cases hy : y.index = i
    · have hxy : x = y := NodeId.eq_iff.mpr (hx.trans hy.symm)
      have hfg : g ∘ f = f ∘ g := funext (h hxy)
      simp [hx, hy, hfg]
    · simp [hx, hy]
  · simp [hx]

theorem modify_store (hx : d.Holds x) (nodes : List Node) :
    (d.modify x f).store nodes = (d.store nodes).modify x f := by
  refine congrArg (Document.mk · d.root) (Array.ext_getElem? fun i => ?_)
  show ((d.nodes.modify x.index f) ++ nodes.toArray)[i]? = ((d.nodes ++ nodes.toArray).modify x.index f)[i]?
  rw [Array.getElem?_modify]
  by_cases hi : i < d.nodes.size
  · rw [Array.getElem?_append_left (by simpa using hi), Array.getElem?_append_left hi, Array.getElem?_modify]
  · have hne : ¬ x.index = i := fun e => hi (e ▸ hx)
    rw [if_neg hne, Array.getElem?_append_right (by simpa using hi), Array.getElem?_append_right (by simpa using hi),
      Array.size_modify]

@[simp] theorem nextId_modify : (d.modify x f).nextId = d.nextId := by
  simp [nextId]

theorem modify_node (d : Document) (x : NodeId) : d.modify x (fun _ => d.node x) = d := by
  refine congrArg (Document.mk · d.root) (Array.ext_getElem? fun i => ?_)
  rw [Array.getElem?_modify]
  split
  · rename_i e
    subst e
    by_cases hi : x.index < d.nodes.size
    · simp [node, hi]
    · simp [hi]
  · rfl

/-- What can be put off until after a step was not changed by it. -/
theorem node_eq_of_modify {k : Document → Document} (h : ∀ f, k (d.modify x f) = (k d).modify x f)
    (hx : (k d).Holds x) : (k d).node x = d.node x := by
  have hsame := h fun _ => d.node x
  rw [modify_node] at hsame
  rw [hsame, node_modify, if_pos ⟨rfl, hx⟩]

variable {object value : NodeId}

/-- A node that is no party to it does not matter when a property is set, nor does the parent of the object. -/
theorem modify_setProperty (key : String) (position : Option Position) (hv : x ≠ value) (hp : x ∉ d.parts object)
    (hf : x = object → ∃ p, f = fun n => { n with parent := p }) :
    (d.modify x f).setProperty object key position value =
      (d.setProperty object key position value).modify x f := by
  have hc : (d.modify x f).content object = d.content object := by
    rw [content, node_modify]
    split
    · rename_i h
      obtain ⟨rfl, -⟩ := h
      obtain ⟨p, rfl⟩ := hf rfl
      rfl
    · rfl
  have hcontent : ∀ c, (d.modify x f).withContent object c = (d.withContent object c).modify x f := fun c =>
    modify_comm fun e n => by obtain ⟨p, rfl⟩ := hf e; rfl
  have hparent : ∀ (e : Document) {id : NodeId} (p : Option NodeId), x ≠ id →
      (e.modify x f).withParent id p = (e.withParent id p).modify x f := fun e id p hne =>
    modify_comm fun h => absurd h hne
  unfold setProperty
  rw [hc]
  cases hms : d.content object with
  | object ms =>
    simp only [hcontent]
    cases hm : Member.find? key ms with
    | none => exact hparent _ _ hv
    | some m =>
      have hne : x ≠ m.value := fun e => hp (by
        rw [e, parts_of_object hms]
        exact List.mem_map_of_mem (Member.find?_mem hm).1)
      by_cases hsame : m.value = value
      · simp only [hsame, if_true]
        exact hparent _ _ hv
      · simp only [hsame, if_false]
        rw [hparent _ _ hne, hparent _ _ hv]
  | _ => rfl

theorem mem_parts_setProperty {key : String} {position : Option Position}
    (hx : x ∈ (d.setProperty object key position value).parts object) : x = value ∨ x ∈ d.parts object := by
  cases hms : d.content object with
  | object ms =>
    have hc := (content_setProperty key position value hms object).trans (if_pos rfl)
    rw [parts_of_object hc] at hx
    obtain ⟨m, hm, rfl⟩ := List.mem_map.mp hx
    rw [parts_of_object hms]
    exact (Member.mem_put hm).imp_right List.mem_map_of_mem
  | _ =>
    refine Or.inr ?_
    rwa [setProperty_of_not_isObject key position (by simp [isObject, hms, Content.isObject])] at hx

end Modify

mutual

/-- What a node that was there before holds does not matter for what is stored. -/
theorem allocate_modify (parent : Option NodeId) (d : Document) (t : Tree) {x : NodeId} (hx : d.Holds x)
    (f : Node → Node) : (d.modify x f).allocate parent t = (d.allocate parent t).modify x f := by
  have hne : x ≠ d.nextId := fun e => not_holds_nextId d (e ▸ hx)
  have hstore := modify_store hx (f := f) [⟨.scalar .null, parent, t.position⟩]
  have hheld : (d.store [⟨.scalar .null, parent, t.position⟩]).Holds x := holds_store _ _ hx
  have hcontent : ∀ (e : Document) c, (e.modify x f).withContent d.nextId c = (e.withContent d.nextId c).modify x f :=
    fun e c => modify_comm fun h => absurd h hne
  match t with
  | ⟨position, .scalar s⟩ =>
    simp only [allocate, nextId_modify]
    rw [hstore, hcontent]
  | ⟨position, .array items⟩ =>
    simp only [allocate, nextId_modify]
    rw [hstore, allocateItems_modify d.nextId _ items hheld f, hcontent]
  | ⟨position, .object members⟩ =>
    simp only [allocate, nextId_modify]
    rw [hstore, hcontent]
    refine allocateMembers_modify d.nextId _ members (holds_withContent _ _ _ _ |>.mpr hheld) ?_ ?_ f
      fun h => absurd h hne
    · simp [Holds, nextId]
    · simp [parts, Content.parts, Holds, nextId]

theorem allocateItems_modify (owner : NodeId) (d : Document) (items : List Tree) {x : NodeId} (hx : d.Holds x)
    (f : Node → Node) : (d.modify x f).allocateItems owner items =
      ((d.allocateItems owner items).1, (d.allocateItems owner items).2.modify x f) := by
  match items with
  | [] => rfl
  | t :: rest =>
    simp only [allocateItems, nextId_modify]
    rw [allocate_modify (some owner) d t hx f, allocateItems_modify owner _ rest (holds_allocate _ t hx) f]

theorem allocateMembers_modify (owner : NodeId) (d : Document) (members : List (Member Tree)) {x : NodeId}
    (hx : d.Holds x) (ho : d.Holds owner) (hp : x ∉ d.parts owner) (f : Node → Node)
    (hf : x = owner → ∃ p, f = fun n => { n with parent := p }) :
    (d.modify x f).allocateMembers owner members = (d.allocateMembers owner members).modify x f := by
  match members with
  | [] => rfl
  | ⟨key, position, t⟩ :: rest =>
    have hne : x ≠ d.nextId := fun e => not_holds_nextId d (e ▸ hx)
    -- The owner lists what it listed when one more part is stored.
    have hparts : (d.allocate (some owner) t).parts owner = d.parts owner := by
      have hnode := node_eq_of_modify (k := fun d => d.allocate (some owner) t)
        (allocate_modify (some owner) d t ho) (holds_allocate _ t ho)
      simp only [parts, content, hnode]
    simp only [allocateMembers, nextId_modify]
    rw [allocate_modify (some owner) d t hx f, modify_setProperty key position hne (hparts ▸ hp) hf]
    refine allocateMembers_modify owner _ rest ?_ ?_ ?_ f hf
    · simpa only [Holds, size_setProperty] using holds_allocate (some owner) t hx
    · simpa only [Holds, size_setProperty] using holds_allocate (some owner) t ho
    · intro hmem
      rcases mem_parts_setProperty hmem with e | hmem
      · exact hne e
      · exact hp (hparts ▸ hmem)

end

/-! ## Parts attached as they are stored -/

section Attaching

variable {d : Document} {owner value : NodeId}

theorem withParent_withParent (d : Document) (id : NodeId) (p q : Option NodeId) :
    (d.withParent id p).withParent id q = d.withParent id q := by
  refine ext_of_nodes rfl (by simp) (fun x => by simp) (fun x => ?_) (fun x => by simp)
  simp only [parent_withParent, holds_withParent]
  split <;> rfl

theorem withContent_withContent (d : Document) (id : NodeId) (c c' : Content NodeId) :
    (d.withContent id c).withContent id c' = d.withContent id c' := by
  refine ext_of_nodes rfl (by simp) (fun x => ?_) (fun x => by simp) (fun x => by simp)
  simp only [content_withContent, holds_withContent]
  split <;> rfl

theorem withContent_withParent (d : Document) (id x : NodeId) (c : Content NodeId) (p : Option NodeId) :
    (d.withParent x p).withContent id c = (d.withContent id c).withParent x p :=
  modify_comm fun _ _ => rfl

/-- To store a tree under a parent is to store it where it hangs nowhere and to name the parent then. -/
theorem allocate_parent (parent : Option NodeId) (d : Document) (t : Tree) :
    d.allocate parent t = (d.allocate none t).withParent d.nextId parent := by
  have hplaceholder : d.store [⟨.scalar .null, parent, t.position⟩] =
      (d.store [⟨.scalar .null, none, t.position⟩]).withParent d.nextId parent :=
    (store_modify d ⟨.scalar .null, none, t.position⟩ [] fun n => { n with parent := parent }).symm
  have hheld : (d.store [⟨.scalar .null, none, t.position⟩]).Holds d.nextId := by simp [Holds, nextId]
  match t with
  | ⟨position, .scalar s⟩ =>
    simp only [allocate]
    rw [hplaceholder, withContent_withParent]
  | ⟨position, .array items⟩ =>
    have hitems := allocateItems_modify d.nextId _ items hheld fun n => { n with parent := parent }
    simp only [allocate]
    rw [hplaceholder, withParent, hitems]
    exact withContent_withParent ..
  | ⟨position, .object members⟩ =>
    simp only [allocate]
    rw [hplaceholder, withContent_withParent]
    refine allocateMembers_modify d.nextId _ members ?_ ?_ ?_ _ fun _ => ⟨parent, rfl⟩
    · exact (holds_withContent ..).mpr hheld
    · exact (holds_withContent ..).mpr hheld
    · have hheld' := hheld
      simp [parts, hheld', Content.parts]

/-- A node that becomes a property names the object as its parent, whatever it named before. -/
theorem setProperty_withParent (ho : d.isObject owner = true) (key : String) (position p : Option _) :
    (d.withParent value p).setProperty owner key position value = d.setProperty owner key position value := by
  have hparent : ∀ (e : Document) {id : NodeId}, value ≠ id →
      (e.withParent value p).withParent id none = (e.withParent id none).withParent value p := fun e id hne =>
    modify_comm fun h => absurd h hne
  have hms := content_of_isObject ho
  simp only [setProperty, content_withParent, hms, withContent_withParent]
  cases Member.find? key (d.members owner) with
  | none => exact withParent_withParent ..
  | some m =>
    by_cases hsame : m.value = value
    · simp only [hsame, if_true]
      exact withParent_withParent ..
    · simp only [hsame, if_false]
      rw [hparent _ (Ne.symm hsame), withParent_withParent]

/-- What a key holds, stored as a member comes, might have been stored apart and then become the property. -/
theorem allocateMembers_cons {m : Member Tree} (ho : (d.allocate none m.value).isObject owner = true)
    (rest : List (Member Tree)) : d.allocateMembers owner (m :: rest) =
      ((d.allocate none m.value).setProperty owner m.key m.position d.nextId).allocateMembers owner rest := by
  rw [allocateMembers, allocate_parent, setProperty_withParent ho]

/-- Items that are stored one after the other and listed at the end might have been stored apart, and each put at
    the end of the array. -/
theorem allocateItems_eq (ho : d.Holds owner) (seen : List NodeId) (items : List Tree) :
    (d.allocateItems owner items).2.withContent owner (.array (seen ++ (d.allocateItems owner items).1)) =
      items.foldl (fun d t => (d.allocate none t).push owner d.nextId) (d.withContent owner (.array seen)) := by
  induction items generalizing d seen with
  | nil => simp [allocateItems]
  | cons t rest ih =>
    have hheld := holds_allocate none t ho
    have hstep : ((d.withContent owner (.array seen)).allocate none t).push owner d.nextId =
        (d.allocate (some owner) t).withContent owner (.array (seen ++ [d.nextId])) := by
      have hmodify : (d.withContent owner (.array seen)).allocate none t =
          (d.allocate none t).withContent owner (.array seen) := allocate_modify none d t ho _
      have hcontent : ((d.allocate none t).withContent owner (.array seen)).content owner = .array seen := by
        simp [hheld]
      rw [hmodify, allocate_parent (some owner), push]
      simp only [hcontent]
      rw [withContent_withContent, withContent_withParent]
    have hnext : (d.withContent owner (.array seen)).nextId = d.nextId := nextId_modify
    rw [List.foldl_cons, hnext, hstep, ← ih (holds_allocate _ t ho)]
    simp only [allocateItems, List.append_assoc, List.singleton_append]

variable (d : Document) (position : Option Position)

theorem allocate_scalar (s : Scalar) : d.allocate none ⟨position, .scalar s⟩ = d.add ⟨position, .scalar s⟩ none :=
  store_withContent ..

theorem allocate_array (items : List Tree) : d.allocate none ⟨position, .array items⟩ =
    items.foldl (fun e t => (e.allocate none t).push d.nextId e.nextId) (d.add ⟨position, .array []⟩ none) := by
  have hheld : (d.store [⟨.scalar .null, none, position⟩]).Holds d.nextId := by simp [Holds, nextId]
  have hfilled := allocateItems_eq hheld [] items
  rw [store_withContent] at hfilled
  exact hfilled

theorem allocate_object (members : List (Member Tree)) : d.allocate none ⟨position, .object members⟩ =
    (d.add ⟨position, .object []⟩ none).allocateMembers d.nextId members := by
  simp only [allocate, store_withContent]
  rfl

end Attaching

/-! ## What has been stored reads as the text says -/

theorem position_push (d : Document) (array value id : NodeId) : (d.push array value).position id = d.position id := by
  unfold push
  split <;> simp

namespace Beside

variable {d e : Document} {t : Tree} (g : Beside d e t) (h : d.WellFormed)
include g h

/-- Work on the tree that was stored leaves it stored beside the rest. -/
theorem extend {e' : Document} {u : Tree} (he : Edited e e' d.nextId) (hu : e'.tree d.nextId = u) :
    Beside d e' u where
  edited site := by
    have hstored := g.edited site
    refine ⟨he.wellFormed, hstored.size_le.trans he.size_le, he.root_eq.trans hstored.root_eq, ?_, ?_, ?_⟩
    · intro id hh hne
      have hid : id ≠ d.nextId := fun hid => not_holds_nextId d (hid ▸ hh)
      obtain ⟨hcontent, hposition⟩ := he.elsewhere (hstored.holds hh) hid
      exact ⟨hcontent.trans (hstored.elsewhere hh hne).1, hposition.trans (hstored.elsewhere hh hne).2⟩
    · intro id hh
      rcases he.parent_cases (hstored.holds hh) with hp | ⟨hp, -⟩
      · rw [hp]; exact hstored.parent_cases hh
      · rcases hstored.parent_cases hh with hp' | ⟨-, hp'⟩
        · exact absurd (h.holds_owner (hp'.symm.trans hp)) (not_holds_nextId d)
        · rw [hp'] at hp; cases hp
    · intro id owner hn hp
      by_cases hh : e.Holds id
      · rcases he.parent_cases hh with hp' | ⟨-, hp'⟩
        · exact hstored.fresh_parent hn (hp'.symm.trans hp)
        · rw [hp'] at hp; cases hp
      · rcases he.fresh_parent hh hp with ho | rfl
        · exact Or.inl fun hd => ho (hstored.holds hd)
        · exact Or.inl (not_holds_nextId d)
  held := he.holds g.held
  free := by
    rcases he.parent_cases g.held with hp | ⟨-, hp⟩
    · exact hp.trans g.free
    · exact hp
  reads := hu

variable {owner : NodeId} {position : Option Position}

theorem tree_pushed {seen : List Tree} (hd : d.tree owner = ⟨position, .array seen⟩) :
    (e.push owner d.nextId).tree owner = ⟨position, .array (seen ++ [t])⟩ := by
  have ha : d.isArray owner = true := by rw [← h.tree_isArray, hd]; rfl
  have hh := holds_of_isArray ha
  have hlinked := (g.push_edited h hh).wellFormed.toLinked
  obtain ⟨ha', hitems⟩ := g.tree_push h ha
  rw [hd, hlinked.tree_items] at hitems
  have hposition : (e.push owner d.nextId).position owner = position := by
    rw [position_push, g.position_eq hh]
    exact congrArg Tree.position ((h.tree_eq owner).symm.trans hd)
  rw [hlinked.tree_eq, hposition, content_of_isArray ha']
  exact congrArg (fun items => (⟨position, .array items⟩ : Tree)) hitems

theorem tree_put {seen : List (Member Tree)} (hd : d.tree owner = ⟨position, .object seen⟩) (key : String)
    (place : Option Position) :
    (e.setProperty owner key place d.nextId).tree owner = ⟨position, .object (Member.put key place t seen)⟩ := by
  have ho : d.isObject owner = true := by rw [← h.tree_isObject, hd]; rfl
  have hh := holds_of_isObject ho
  have he := g.setProperty_edited h hh key place
  obtain ⟨hcontent, hnew⟩ := g.setProperty_members h ho key place
  have hold : (d.members owner).map (fun m => (⟨m.key, m.position, d.tree m.value⟩ : Member Tree)) = seen := by
    rw [← h.tree_members, hd]; rfl
  have hposition : (e.setProperty owner key place d.nextId).position owner = position := by
    rw [position_setProperty, g.position_eq hh]
    exact congrArg Tree.position ((h.tree_eq owner).symm.trans hd)
  rw [he.wellFormed.tree_eq, hposition, hcontent, Content.map, Member.map_put, hnew, ← hold]
  congr 3
  refine List.map_congr_left fun m hm => ?_
  have hpart := mem_parts_of_mem_members hm
  rw [he.tree_eq h.toLinked (h.parts_held hpart) (h.not_under_part hpart)]

end Beside

mutual

/-- A tree that is stored step by step reads as the tree with equal keys merged. -/
theorem WellFormed.allocate_beside {d : Document} (h : d.WellFormed) (t : Tree) :
    Beside d (d.allocate none t) t.distinct := by
  match t with
  | ⟨position, .scalar s⟩ =>
    rw [allocate_scalar]
    exact h.add_beside (by simp [Tree.Keyed])
  | ⟨position, .array items⟩ =>
    have hempty := h.add_beside (t := ⟨position, .array []⟩) (by simp [Tree.Keyed, Tree.ItemsKeyed])
    obtain ⟨hedited, htree⟩ := (hempty.edited d.root).wellFormed.allocateItems_reads hempty.reads items
    rw [allocate_array]
    exact hempty.extend h hedited htree
  | ⟨position, .object members⟩ =>
    have hempty := h.add_beside (t := ⟨position, .object []⟩) (by simp [Tree.Keyed, Tree.MembersKeyed])
    obtain ⟨hedited, htree⟩ := (hempty.edited d.root).wellFormed.allocateMembers_reads hempty.reads members
    rw [allocate_object]
    exact hempty.extend h hedited htree

/-- Trees that are stored and put at the end of an array one after the other. -/
theorem WellFormed.allocateItems_reads {d : Document} (h : d.WellFormed) {owner : NodeId} {position : Option Position}
    {seen : List Tree} (hd : d.tree owner = ⟨position, .array seen⟩) (items : List Tree) :
    let filled := items.foldl (fun d t => (d.allocate none t).push owner d.nextId) d
    Edited d filled owner ∧ filled.tree owner = ⟨position, .array (seen ++ Tree.distinctItems items)⟩ := by
  match items with
  | [] => exact ⟨.refl h owner, by simpa [Tree.distinctItems] using hd⟩
  | t :: rest =>
    have ho : d.Holds owner := holds_of_isArray (by rw [← h.tree_isArray, hd]; rfl)
    have g := h.allocate_beside t
    have hfirst := g.push_edited h ho
    obtain ⟨hmore, htree⟩ := hfirst.wellFormed.allocateItems_reads (g.tree_pushed h hd) rest
    refine ⟨hfirst.trans hmore, htree.trans ?_⟩
    simp [Tree.distinctItems]

/-- Trees that are stored and become properties of an object one after the other. -/
theorem WellFormed.allocateMembers_reads {d : Document} (h : d.WellFormed) {owner : NodeId} {position : Option Position}
    {seen : List (Member Tree)} (hd : d.tree owner = ⟨position, .object seen⟩) (members : List (Member Tree)) :
    Edited d (d.allocateMembers owner members) owner ∧
      (d.allocateMembers owner members).tree owner = ⟨position, .object (Tree.distinctMembers seen members)⟩ := by
  match members with
  | [] => exact ⟨.refl h owner, hd⟩
  | m :: rest =>
    have ho : d.isObject owner = true := by rw [← h.tree_isObject, hd]; rfl
    have g := h.allocate_beside m.value
    have hfirst := g.setProperty_edited h (holds_of_isObject ho) m.key m.position
    obtain ⟨hmore, htree⟩ := hfirst.wellFormed.allocateMembers_reads (g.tree_put h hd m.key m.position) rest
    rw [allocateMembers_cons (by rw [isObject, g.content_eq (holds_of_isObject ho)]; exact ho)]
    exact ⟨hfirst.trans hmore, htree⟩

end

/-! ## Whole texts -/

/-- A tree that is stored in a document of its own. -/
theorem blank_allocate (t : Tree) :
    (blank.allocate none t).WellFormed ∧ (blank.allocate none t).root = ⟨0⟩ ∧
      (blank.allocate none t).tree ⟨0⟩ = t.distinct := by
  have hstart : ∀ u : Tree, u.Keyed → (blank.add u none).WellFormed ∧ (blank.add u none).tree ⟨0⟩ = u := fun u hu =>
    ⟨ofTree_eq_add u ▸ ofTree_wellFormed hu, blank_linked.tree_nextId_add hu⟩
  match t with
  | ⟨position, .scalar s⟩ =>
    rw [allocate_scalar]
    have hscalar := hstart ⟨position, .scalar s⟩ (by simp [Tree.Keyed])
    exact ⟨hscalar.1, rfl, hscalar.2⟩
  | ⟨position, .array items⟩ =>
    rw [allocate_array]
    obtain ⟨hwf, htree⟩ := hstart ⟨position, .array []⟩ (by simp [Tree.Keyed, Tree.ItemsKeyed])
    obtain ⟨hedited, hfilled⟩ := hwf.allocateItems_reads htree items
    exact ⟨hedited.wellFormed, hedited.root_eq, hfilled⟩
  | ⟨position, .object members⟩ =>
    rw [allocate_object]
    obtain ⟨hwf, htree⟩ := hstart ⟨position, .object []⟩ (by simp [Tree.Keyed, Tree.MembersKeyed])
    obtain ⟨hedited, hfilled⟩ := hwf.allocateMembers_reads htree members
    exact ⟨hedited.wellFormed, hedited.root_eq, hfilled⟩

/-- A text that spells a document has a node for all that it says, equal keys or not. Stored one by one, these nodes
    make a well-formed document that reads as the parsed one, positions of nodes and keys included. So its nodes
    below the root and those of the parsed document are counterparts of one another, which is all that a
    transform goes by; the others are let go by a key that came again. -/
theorem parse_allocated {text : String} {d : Document} (hd : parse text = .ok d) :
    ∃ whole : Tree, readRaw (withoutMark text.toList) = .ok whole ∧
      let e := blank.allocate none whole
      e.WellFormed ∧ e.nodes.size = whole.size ∧ e.root = d.root ∧ e.tree e.root = d.tree d.root ∧
        Alike (Counterparts d e) d e := by
  have hwf := parse_wellFormed hd
  unfold parse Tree.parse at hd
  cases hw : readRaw (withoutMark text.toList) with
  | error f => rw [hw] at hd; cases hd
  | ok whole =>
    rw [hw] at hd
    obtain rfl : ofTree whole.distinct = d := Except.ok.inj hd
    obtain ⟨hallocated, hroot, htree⟩ := blank_allocate whole
    have hparsed : (ofTree whole.distinct).tree ⟨0⟩ = whole.distinct := by
      rw [ofTree_eq_add]
      exact blank_linked.tree_nextId_add (Tree.distinct_keyed whole)
    have hsame : (blank.allocate none whole).tree (blank.allocate none whole).root =
        (ofTree whole.distinct).tree (ofTree whole.distinct).root := by
      rw [hroot, htree]
      exact hparsed.symm
    refine ⟨whole, rfl, hallocated, ?_, hroot, hsame, ?_⟩
    · rw [size_allocate]
      exact Nat.zero_add _
    · exact alike_of_rootValue hwf hallocated (congrArg Tree.value hsame).symm

/-- What the key held at first stays in the store and hangs nowhere. -/
example :
    let e := blank.allocate none
      ⟨none, .object [⟨"a", none, ⟨none, .scalar .null⟩⟩, ⟨"a", none, ⟨none, .scalar (.bool true)⟩⟩]⟩
    e.get? ⟨0⟩ "a" = some ⟨2⟩ ∧ e.parent ⟨1⟩ = none ∧ e.parent ⟨2⟩ = some ⟨0⟩ := by
  decide

end Reshape.Document
