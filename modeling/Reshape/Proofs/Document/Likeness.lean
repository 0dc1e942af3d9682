/-
  Reshape.Proofs.Document.Likeness — documents that differ in nothing but how they are stored.

  A pairing tells which nodes of two documents are counterparts. It makes the documents alike
  if it pairs their roots, pairs no node with two, and if counterparts hold alike contents and
  hang alike (`Document.Alike`). Handles, positions, key positions and nodes that are not
  paired do not matter. Everything that is read from a node is then read from its counterpart
  as well: its value (`Alike.value_eq`), its slot, its properties, and what a path finds from it.

  - A change made to counterparts, with copies of alike trees, leaves the documents alike
    (`Alike.perform`). What it stores on both sides is paired in addition, node by node; no
    pair is given up, so that handles found before the change are good after it.
  - `Paired` is what is left of likeness halfway through a change, where neither document
    need be well-formed.
  - `alike_of_rootValue`: well-formed documents of one value are alike; counterparts are the
    nodes that are reached from the roots on the same way down.
-/

import Mathlib.Order.Basic
import Reshape.Proofs.Document.Scope
import Reshape.Proofs.Json.Likeness

namespace Reshape

/-- Which nodes of two documents are counterparts. -/
abbrev Pairing := NodeId → NodeId → Prop

/-- Nodes that hold alike contents and hang alike, wherever they stand. -/
structure Node.Alike (R : Pairing) (n m : Node) : Prop where
  content : Content.Alike R n.content m.content
  parent : Option.Rel R n.parent m.parent

inductive Slot.Alike (R : Pairing) : Slot → Slot → Prop
  | none : Alike R .none .none
  | property {o o' : NodeId} (key : String) : R o o' → Alike R (.property o key) (.property o' key)
  | element {x x' : NodeId} (index : Nat) : R x x' → Alike R (.element x index) (.element x' index)

inductive Change.Alike (R : Pairing) : Change → Change → Prop
  | overwrite {a b : NodeId} {t u : Tree} : R a b → t.Alike u → Alike R (.overwrite a t) (.overwrite b u)
  | append {a b : NodeId} {ts us : List Tree} :
      R a b → List.Forall₂ Tree.Alike ts us → Alike R (.append a ts) (.append b us)
  | detach {a b : NodeId} : R a b → Alike R (.detach a) (.detach b)
  | remove {a b : NodeId} (key : String) : R a b → Alike R (.remove a key) (.remove b key)
  | rename {a b : NodeId} (name : String) : R a b → Alike R (.rename a name) (.rename b name)
  | insert {a b : NodeId} {m n : Member Tree} :
      R a b → Member.Alike Tree.Alike m n → Alike R (.insert a m) (.insert b n)

variable {R S : Pairing}

namespace Change.Alike

variable {c c' : Change} (h : c.Alike R c')
include h

theorem target : R c.target c'.target := by
  cases h <;> assumption

theorem copies : List.Forall₂ Tree.Alike c.copies c'.copies := by
  cases h with
  | overwrite _ ht => exact .cons ht .nil
  | append _ ht => exact ht
  | insert _ hm => exact .cons hm.value .nil
  | _ => exact .nil

theorem keyed_left : ∀ t ∈ c.copies, t.Keyed :=
  ((List.forall₂_and_left _ _).mp (h.copies.imp fun _ _ ht => ⟨ht.left, ht⟩)).1

theorem keyed_right : ∀ t ∈ c'.copies, t.Keyed :=
  ((List.forall₂_and_left _ _).mp (h.copies.flip.imp fun _ _ (ht : Tree.Alike _ _) => ⟨ht.right, ht⟩)).1

end Change.Alike

theorem Node.Alike.mono {n m : Node} (h : Node.Alike R n m) (hs : R ≤ S) : Node.Alike S n m :=
  ⟨h.content.mono hs, optionRel_mono h.parent hs⟩

/-! ## Trees laid out twice -/

/-- The `k` handles from `b` on are the counterparts of those from `c` on. -/
def Pairing.Along (R : Pairing) (b c k : Nat) : Prop := ∀ i < k, R ⟨b + i⟩ ⟨c + i⟩

theorem Pairing.Along.split {b c k l : Nat} (h : R.Along b c (k + l)) :
    R.Along b c k ∧ R.Along (b + k) (c + k) l := by
  refine ⟨fun i hi => h i (by omega), fun i hi => ?_⟩
  rw [Nat.add_assoc, Nat.add_assoc]
  exact h (k + i) (by omega)

theorem Pairing.Along.first {b c k : Nat} (h : R.Along b c k) (hk : 0 < k) : R ⟨b⟩ ⟨c⟩ := h 0 hk

/-- Wherever the two trees are laid out, alike nodes come about if the handles are paired in order. -/
def LaidAlike (R : Pairing) (t u : Tree) : Prop :=
  ∀ {p q : Option NodeId} {b c : Nat}, Option.Rel R p q → R.Along b c t.size →
    List.Forall₂ (Node.Alike R) (t.nodes p b) (u.nodes q c)

theorem itemIds_alike {ts us : List Tree} (h : List.Forall₂ Tree.Alike ts us) {b c : Nat}
    (ha : R.Along b c (Tree.itemsSize ts)) : List.Forall₂ R (itemIds b ts) (itemIds c us) := by
  induction h generalizing b c with
  | nil => exact .nil
  | @cons t u _ _ ht _ ih =>
    obtain ⟨hfirst, hrest⟩ := Pairing.Along.split ha
    refine .cons (hfirst.first (size_pos t)) ?_
    rw [← ht.size_eq]
    exact ih hrest

theorem memberIds_alike {ms ns : List (Member Tree)} (h : List.Forall₂ (Member.Alike Tree.Alike) ms ns)
    {b c : Nat} (ha : R.Along b c (Tree.membersSize ms)) :
    List.Forall₂ (Member.Alike R) (memberIds b ms) (memberIds c ns) := by
  induction h generalizing b c with
  | nil => exact .nil
  | @cons m n _ _ hm _ ih =>
    obtain ⟨hfirst, hrest⟩ := Pairing.Along.split ha
    refine .cons ⟨hm.key, hfirst.first (size_pos m.value)⟩ ?_
    rw [← hm.value.size_eq]
    exact ih hrest

theorem itemNodes_alike {o o' : NodeId} (ho : R o o') {ts us : List Tree}
    (h : List.Forall₂ (fun t u => t.Alike u ∧ LaidAlike R t u) ts us) {b c : Nat}
    (ha : R.Along b c (Tree.itemsSize ts)) :
    List.Forall₂ (Node.Alike R) (itemNodes o b ts) (itemNodes o' c us) := by
  induction h generalizing b c with
  | nil => exact .nil
  | @cons t u _ _ ht _ ih =>
    obtain ⟨hfirst, hrest⟩ := Pairing.Along.split ha
    rw [itemNodes, itemNodes, ← ht.1.size_eq]
    exact List.rel_append (ht.2 (.some ho) hfirst) (ih hrest)

theorem memberNodes_alike {o o' : NodeId} (ho : R o o') {ms ns : List (Member Tree)}
    (h : List.Forall₂ (Member.Alike fun t u => t.Alike u ∧ LaidAlike R t u) ms ns) {b c : Nat}
    (ha : R.Along b c (Tree.membersSize ms)) :
    List.Forall₂ (Node.Alike R) (memberNodes o b ms) (memberNodes o' c ns) := by
  induction h generalizing b c with
  | nil => exact .nil
  | @cons m n _ _ hm _ ih =>
    obtain ⟨hfirst, hrest⟩ := Pairing.Along.split ha
    rw [memberNodes, memberNodes, ← hm.value.1.size_eq]
    exact List.rel_append (hm.value.2 (.some ho) hfirst) (ih hrest)

/-- The parts of alike trees, laid out under nodes that are there already. -/
theorem contentNodes_alike {t u : Tree} {o o' : NodeId} (ho : R o o')
    (h : Content.Alike (fun x y => x.Alike y ∧ LaidAlike R x y) t.content u.content) {b c : Nat}
    (ha : R.Along b c (t.size - 1)) :
    Content.Alike R (t.content.ids b) (u.content.ids c) ∧
      List.Forall₂ (Node.Alike R) (t.content.nodes o b) (u.content.nodes o' c) := by
  obtain ⟨p, content⟩ := t
  obtain ⟨q, content'⟩ := u
  cases h with
  | scalar s => exact ⟨.scalar s, .nil⟩
  | @array ts us hi =>
    have ha : R.Along b c (Tree.itemsSize ts) := by simpa [Tree.size] using ha
    exact ⟨.array (itemIds_alike (hi.imp fun _ _ h => h.1) ha), itemNodes_alike ho hi ha⟩
  | @object ms ns hm =>
    have ha : R.Along b c (Tree.membersSize ms) := by simpa [Tree.size] using ha
    exact ⟨.object (memberIds_alike (hm.imp fun _ _ h => ⟨h.key, h.value.1⟩) ha), memberNodes_alike ho hm ha⟩

theorem length_contentNodes (o : NodeId) (b : Nat) (t : Tree) : (t.content.nodes o b).length = t.size - 1 := by
  obtain ⟨p, content⟩ := t
  cases content with
  | scalar s => rfl
  | array items => simp [Content.nodes, length_itemNodes, Tree.size]
  | object members => simp [Content.nodes, length_memberNodes, Tree.size]

/-- Alike trees are laid out as alike nodes. -/
theorem Tree.Alike.laid {t u : Tree} (h : t.Alike u) : LaidAlike R t u := by
  refine h.induction (motive := LaidAlike R) fun t u hc p q b c hp ha => ?_
  have hroot := ha.first (size_pos t)
  have hrest : R.Along (b + 1) (c + 1) (t.size - 1) := by
    have hsize : 1 + (t.size - 1) = t.size := Nat.add_sub_cancel' (size_pos t)
    rw [← hsize] at ha
    exact ha.split.2
  obtain ⟨hids, hnodes⟩ := contentNodes_alike hroot hc hrest
  obtain ⟨_, _⟩ := t
  obtain ⟨_, _⟩ := u
  exact .cons ⟨hids, hp⟩ hnodes

/-! ## Pairings of two documents -/

namespace Document

structure Paired (R : Pairing) (d e : Document) : Prop where
  one_one : ∀ {a b a' b'}, R a b → R a' b' → (a = a' ↔ b = b')
  root : R d.root e.root
  holds_left : ∀ {a b}, R a b → d.Holds a
  holds_right : ∀ {a b}, R a b → e.Holds b
  node : ∀ {a b}, R a b → Node.Alike R (d.node a) (e.node b)

namespace Paired

variable {d e : Document} {a b : NodeId} (h : Paired R d e) (hr : R a b)
include h hr

theorem content : Content.Alike R (d.content a) (e.content b) := (h.node hr).content

theorem parent : Option.Rel R (d.parent a) (e.parent b) := (h.node hr).parent

theorem isObject_eq : d.isObject a = e.isObject b := (h.content hr).isObject_eq

theorem isArray_eq : d.isArray a = e.isArray b := (h.content hr).isArray_eq

theorem isRoot_eq : d.isRoot a = e.isRoot b := by
  rw [isRoot, isRoot, beq_eq_decide, beq_eq_decide, decide_eq_decide]
  exact h.one_one hr h.root

theorem members : List.Forall₂ (Member.Alike R) (d.members a) (e.members b) := (h.content hr).members

theorem items : List.Forall₂ R (d.items a) (e.items b) := (h.content hr).items

/-! ## Single nodes -/

theorem modify {f g : Node → Node} (hn : Node.Alike R (f (d.node a)) (g (e.node b))) :
    Paired R (d.modify a f) (e.modify b g) where
  one_one := h.one_one
  root := h.root
  holds_left hxy := by simpa [Holds] using h.holds_left hxy
  holds_right hxy := by simpa [Holds] using h.holds_right hxy
  node {x y} hxy := by
    rw [node_modify, node_modify]
    by_cases hx : x = a
    · have hy : y = b := (h.one_one hxy hr).mp hx
      rw [if_pos ⟨hx, h.holds_left hr⟩, if_pos ⟨hy, h.holds_right hr⟩, hx, hy]
      exact hn
    · have hy : y ≠ b := fun e => hx ((h.one_one hxy hr).mpr e)
      rw [if_neg fun e => hx e.1, if_neg fun e => hy e.1]
      exact h.node hxy

theorem withContent {c c' : Content NodeId} (hc : Content.Alike R c c') :
    Paired R (d.withContent a c) (e.withContent b c') :=
  h.modify hr ⟨hc, h.parent hr⟩

theorem withParent {p q : Option NodeId} (hp : Option.Rel R p q) :
    Paired R (d.withParent a p) (e.withParent b q) :=
  h.modify hr ⟨h.content hr, hp⟩

omit hr in
theorem orphan {ids ids' : List NodeId} (hi : List.Forall₂ R ids ids') :
    Paired R (d.orphan ids) (e.orphan ids') := by
  induction hi generalizing d e with
  | nil => exact h
  | cons hxy _ ih => exact ih (h.withParent hxy .none)

/-! ## Properties and items -/

theorem setProperty {v w : NodeId} (hv : R v w) (key : String) (p q : Option Position) :
    Paired R (d.setProperty a key p v) (e.setProperty b key q w) := by
  have hc := h.content hr
  unfold Document.setProperty
  generalize d.content a = c, e.content b = c' at hc
  cases hc with
  | @object ms ns hm =>
    have hput := h.withContent hr (.object (Member.put_alike hm key p q hv))
    refine Paired.withParent ?_ hv (.some hr)
    have hf := Member.find?_alike hm key
    generalize Member.find? key ms = m?, Member.find? key ns = n? at hf
    cases hf with
    | none => exact hput
    | @some m n hmn =>
      simp only [← h.one_one hmn.value hv]
      split
      · exact hput
      · exact hput.withParent hmn.value .none
  | _ => exact h

theorem removeProperty? (key : String) :
    Option.Rel (Paired R) (d.removeProperty? a key) (e.removeProperty? b key) := by
  have hc := h.content hr
  unfold Document.removeProperty?
  generalize d.content a = c, e.content b = c' at hc
  cases hc with
  | object hm =>
    refine optionRel_map (Member.find?_alike hm key) fun m n hmn => ?_
    exact (h.withContent hr (.object (Member.erase_alike hm key))).withParent hmn.value .none
  | _ => exact .none

theorem member? (key : String) : Option.Rel (Member.Alike R) (d.member? a key) (e.member? b key) :=
  Member.find?_alike (h.members hr) key

theorem get? (key : String) : Option.Rel R (d.get? a key) (e.get? b key) :=
  optionRel_map (h.member? hr key) fun _ _ hmn => hmn.value

theorem renameProperty? (old new : String) :
    Option.Rel (Paired R) (d.renameProperty? a old new) (e.renameProperty? b old new) := by
  have hg := h.get? hr old
  unfold Document.renameProperty?
  generalize d.get? a old = x?, e.get? b old = y? at hg
  cases hg with
  | none => exact .none
  | some _ =>
    by_cases he : old = new
    · simp only [if_pos he]; exact .some h
    · have hcleared := optionRel_getD (h.removeProperty? hr new) h
      simp only [if_neg he]
      exact .some (hcleared.withContent hr (.object (Member.rekey_alike (hcleared.members hr) old new)))

theorem push {v w : NodeId} (hv : R v w) : Paired R (d.push a v) (e.push b w) := by
  have hc := h.content hr
  unfold Document.push
  generalize d.content a = c, e.content b = c' at hc
  cases hc with
  | array hi =>
    exact (h.withContent hr (.array (List.rel_append hi (.cons hv .nil)))).withParent hv (.some hr)
  | _ => exact h

/-! ## Places -/

theorem slot : Slot.Alike R (d.slot a) (e.slot b) := by
  have hp := h.parent hr
  unfold Document.slot
  generalize d.parent a = p?, e.parent b = q? at hp
  cases hp with
  | none => exact .none
  | @some p q hpq =>
    have hc := h.content hpq
    have hsame : ∀ x y, R x y → (x == a) = (y == b) := fun x y hxy => by
      rw [beq_eq_decide, beq_eq_decide, decide_eq_decide]; exact h.one_one hxy hr
    simp only
    generalize d.content p = c, e.content q = c' at hc
    cases hc with
    | scalar s => exact .none
    | @array xs ys hi =>
      simp only [forall₂_findIdx? hi hsame]
      cases ys.findIdx? (· == b) with
      | none => exact .none
      | some index => exact .element index hpq
    | @object ms ns hm =>
      have hf := forall₂_find? hm fun m n hmn => hsame m.value n.value hmn.value
      simp only
      generalize ms.find? (fun m => m.value == a) = m?, ns.find? (fun n => n.value == b) = n? at hf
      cases hf with
      | none => exact .none
      | @some m n hmn =>
        simp only [hmn.key]
        exact .property n.key hpq

theorem renameHolder? (name : String) :
    Option.Rel (Paired R) (d.renameHolder? a name) (e.renameHolder? b name) := by
  have hs := h.slot hr
  unfold Document.renameHolder?
  generalize d.slot a = x, e.slot b = y at hs
  cases hs with
  | property key ho => exact .some (optionRel_getD (h.renameProperty? ho key name) h)
  | _ => exact .none

theorem detach? : Option.Rel (Paired R) (d.detach? a) (e.detach? b) := by
  have hs := h.slot hr
  unfold Document.detach?
  generalize d.slot a = x, e.slot b = y at hs
  cases hs with
  | none => exact .none
  | property key ho => exact h.removeProperty? ho key
  | element index hx =>
    have hi := forall₂_eraseIdx (h.items hx) index
    exact .some ((h.withContent hx (.array hi)).withParent hr .none)

end Paired

/-! ## Storing -/

def extend (R : Pairing) (d e : Document) (k : Nat) : Pairing := fun a b =>
  R a b ∨ ∃ i < k, a = ⟨d.nodes.size + i⟩ ∧ b = ⟨e.nodes.size + i⟩

section Extend

variable {d e : Document} {k : Nat}

theorem le_extend : R ≤ extend R d e k := fun _ _ hr => Or.inl hr

theorem extend_along : (extend R d e k).Along d.nodes.size e.nodes.size k :=
  fun i hi => Or.inr ⟨i, hi, rfl, rfl⟩

theorem holds_store (d : Document) (ns : List Node) {id : NodeId} (h : d.Holds id) : (d.store ns).Holds id := by
  simp only [Holds, size_store] at h ⊢
  omega

theorem holds_store_at (d : Document) {ns : List Node} {i : Nat} (hi : i < ns.length) :
    (d.store ns).Holds ⟨d.nodes.size + i⟩ := by
  simp only [Holds, size_store]
  omega

theorem node_store_at (d : Document) {ns : List Node} {i : Nat} (hi : i < ns.length) :
    (d.store ns).node ⟨d.nodes.size + i⟩ = ns[i] :=
  node_store_laid (by simp [laidAt?, hi])

/-- A handle in use is no free one. -/
theorem ne_free {d : Document} {id : NodeId} (h : d.Holds id) (i : Nat) : id ≠ ⟨d.nodes.size + i⟩ := by
  rintro rfl
  simp only [Holds] at h
  omega

end Extend

namespace Paired

variable {d e : Document} {a b : NodeId} (h : Paired R d e)
include h

theorem extend_one_one {k : Nat} {a' b' : NodeId} (hab : extend R d e k a b) (hab' : extend R d e k a' b') :
    a = a' ↔ b = b' := by
  rcases hab with hab | ⟨i, -, rfl, rfl⟩
  · rcases hab' with hab' | ⟨j, -, rfl, rfl⟩
    · exact h.one_one hab hab'
    · exact iff_of_false (ne_free (h.holds_left hab) j) (ne_free (h.holds_right hab) j)
  · rcases hab' with hab' | ⟨j, -, rfl, rfl⟩
    · exact iff_of_false (ne_free (h.holds_left hab') i).symm (ne_free (h.holds_right hab') i).symm
    · simp only [NodeId.mk.injEq]
      omega

/-- Alike nodes, stored in both documents, are counterparts. -/
theorem store {ns ms : List Node} {k : Nat} (hk : ns.length = k)
    (hl : List.Forall₂ (Node.Alike (extend R d e k)) ns ms) :
    Paired (extend R d e k) (d.store ns) (e.store ms) where
  one_one := h.extend_one_one
  root := Or.inl h.root
  holds_left := by
    rintro x y (hxy | ⟨i, hi, rfl, -⟩)
    · exact holds_store d ns (h.holds_left hxy)
    · exact holds_store_at d (hk ▸ hi)
  holds_right := by
    rintro x y (hxy | ⟨i, hi, -, rfl⟩)
    · exact holds_store e ms (h.holds_right hxy)
    · exact holds_store_at e (hl.length_eq ▸ hk ▸ hi)
  node := by
    rintro x y (hxy | ⟨i, hi, rfl, rfl⟩)
    · rw [node_store_held ns (h.holds_left hxy), node_store_held ms (h.holds_right hxy)]
      exact (h.node hxy).mono le_extend
    · have hleft : i < ns.length := hk ▸ hi
      have hright : i < ms.length := hl.length_eq ▸ hleft
      rw [node_store_at d hleft, node_store_at e hright]
      exact hl.get hleft hright

/-- A copy on both sides, at the first free handle. -/
theorem add {t u : Tree} (ht : t.Alike u) :
    Paired (extend R d e t.size) (d.add t none) (e.add u none) ∧ extend R d e t.size d.nextId e.nextId := by
  have hl := Tree.Alike.laid ht .none (extend_along (R := R) (d := d) (e := e))
  exact ⟨h.store (length_nodes none d.nodes.size t) hl, extend_along.first (size_pos t)⟩

/-- A tree taken over by counterparts. -/
theorem replace {t u : Tree} (hr : R a b) (ht : t.Alike u) :
    ∃ S, R ≤ S ∧ Paired S (d.replace a t) (e.replace b u) := by
  have horphan := h.orphan (h.content hr).parts
  unfold Document.replace
  simp only
  generalize d.orphan (d.content a).parts = d₁, e.orphan (e.content b).parts = e₁ at horphan
  have hr' : extend R d₁ e₁ (t.size - 1) a b := le_extend a b hr
  have hc : Content.Alike (fun x y => x.Alike y ∧ LaidAlike (extend R d₁ e₁ (t.size - 1)) x y)
      t.content u.content := ht.content.mono fun _ _ hxy => ⟨hxy, hxy.laid⟩
  obtain ⟨hids, hnodes⟩ := contentNodes_alike hr' hc extend_along
  have hstore := horphan.store (length_contentNodes a d₁.nodes.size t) hnodes
  exact ⟨_, le_extend, hstore.modify hr' ⟨hids, hstore.parent hr'⟩⟩

/-- Copies at the end of counterparts. -/
theorem append {ts us : List Tree} (hr : R a b) (ht : List.Forall₂ Tree.Alike ts us) :
    ∃ S, R ≤ S ∧ Paired S (d.append a ts) (e.append b us) := by
  unfold Document.append
  induction ht generalizing R d e with
  | nil => exact ⟨R, le_refl R, h⟩
  | @cons t u _ _ htu _ ih =>
    obtain ⟨hadd, hnew⟩ := h.add htu
    obtain ⟨S, hle, hS⟩ := ih (hadd.push (le_extend a b hr) hnew) (le_extend a b hr)
    exact ⟨S, le_trans le_extend hle, hS⟩

/-- A change made to counterparts. -/
theorem perform {c c' : Change} (hc : c.Alike R c') :
    ∃ S, R ≤ S ∧ Paired S (d.perform c) (e.perform c') := by
  cases hc with
  | overwrite hr ht => exact h.replace hr ht
  | append hr ht => exact h.append hr ht
  | detach hr => exact ⟨R, le_refl R, optionRel_getD (h.detach? hr) h⟩
  | remove key hr => exact ⟨R, le_refl R, optionRel_getD (h.removeProperty? hr key) h⟩
  | rename name hr => exact ⟨R, le_refl R, optionRel_getD (h.renameHolder? hr name) h⟩
  | @insert a b m n hr hm =>
    obtain ⟨key, p, t⟩ := m
    obtain ⟨_, q, u⟩ := n
    obtain ⟨rfl, ht⟩ := hm
    obtain ⟨hadd, hnew⟩ := h.add ht
    exact ⟨_, le_extend, hadd.setProperty (le_extend a b hr) hnew key p q⟩

end Paired

/-! ## Alike documents -/

/-- Two nodes have one value if they hold alike contents, their parts having one value each. -/
theorem Linked.value_eq_iff {d e : Document} (hd : d.Linked) (he : e.Linked) {a b : NodeId} :
    d.value a = e.value b ↔
      Content.Alike (fun x y => d.value x = e.value y) (d.content a) (e.content b) := by
  rw [value, value, hd.tree_eq, he.tree_eq, Tree.value_eq_iff]
  exact Content.alike_map_iff (S := fun t u : Tree => t.value = u.value)

structure Alike (R : Pairing) (d e : Document) : Prop extends Paired R d e where
  left : d.WellFormed
  right : e.WellFormed

namespace Alike

variable {d e : Document} {a b : NodeId} (h : Alike R d e)
include h

/-- Counterparts have one value. -/
theorem value_eq (hr : R a b) : d.value a = e.value b := by
  induction a using h.left.parts_induction generalizing b with
  | step a ih =>
    rw [h.left.value_eq_iff h.right.toLinked]
    exact (h.content hr).of_mem fun x hx y _ hxy => ih x hx hxy

theorem rootValue_eq : d.rootValue = e.rootValue := h.value_eq h.root

/-- A change made to counterparts leaves the documents alike. What it stores is paired in addition. -/
theorem perform {c c' : Change} (hc : c.Alike R c') :
    ∃ S, R ≤ S ∧ Alike S (d.perform c) (e.perform c') := by
  obtain ⟨S, hle, hS⟩ := h.toPaired.perform hc
  exact ⟨S, hle, hS, h.left.perform ⟨h.holds_left hc.target, hc.keyed_left⟩,
    h.right.perform ⟨h.holds_right hc.target, hc.keyed_right⟩⟩

/-! ## Finding -/

theorem tokenPart? (hr : R a b) (token : List Char) :
    Option.Rel R (d.tokenPart? a token) (e.tokenPart? b token) := by
  have hc := h.content hr
  have hg := h.get? hr (String.ofList token)
  unfold Document.tokenPart?
  generalize d.content a = c, e.content b = c' at hc
  cases hc with
  | scalar s => exact .none
  | object hm => exact hg
  | array hi =>
    simp only
    cases readIndex? token with
    | none => exact .none
    | some i => exact forall₂_getElem? hi i

theorem followTokens? (hr : R a b) (tokens : List (List Char)) :
    Option.Rel R (d.followTokens? a tokens) (e.followTokens? b tokens) := by
  induction tokens generalizing a b with
  | nil => exact .some hr
  | cons token rest ih => exact optionRel_bind (h.tokenPart? hr token) fun _ _ hxy => ih hxy

theorem resolve? (hr : R a b) (pointer : List Char) :
    Option.Rel R (d.resolve? a pointer) (e.resolve? b pointer) := by
  unfold Document.resolve?
  cases pointerTokens? pointer with
  | none => exact .none
  | some tokens => exact h.followTokens? hr tokens

end Alike

/-! ## Documents of one value -/

/-- Nodes that are reached from the roots on the same way down. -/
inductive Counterparts (d e : Document) : Pairing
  | root : Counterparts d e d.root e.root
  | part {a b x y : NodeId} (i : Nat) : Counterparts d e a b → (d.parts a)[i]? = some x →
      (e.parts b)[i]? = some y → Counterparts d e x y

namespace Counterparts

variable {d e : Document} {a b : NodeId}

theorem symm (h : Counterparts d e a b) : Counterparts e d b a := by
  induction h with
  | root => exact .root
  | part i _ hx hy ih => exact .part i ih hy hx

theorem parent (hd : d.WellFormed) (he : e.WellFormed) (h : Counterparts d e a b) :
    Option.Rel (Counterparts d e) (d.parent a) (e.parent b) := by
  cases h with
  | root => rw [hd.root_free, he.root_free]; exact .none
  | part i hab hx hy =>
    rw [hd.parent_iff.mpr (List.mem_of_getElem? hx), he.parent_iff.mpr (List.mem_of_getElem? hy)]
    exact .some hab

theorem unique (hd : d.WellFormed) (h : Counterparts d e a b) {b' : NodeId} (h' : Counterparts d e a b') :
    b = b' := by
  induction h generalizing b' with
  | root =>
    cases h' with
    | root => rfl
    | part j _ hx _ =>
      have hp := hd.parent_iff.mpr (List.mem_of_getElem? hx)
      rw [hd.root_free] at hp
      cases hp
  | @part a b x y i _ hx hy ih =>
    have hp := hd.parent_iff.mpr (List.mem_of_getElem? hx)
    cases h' with
    | root =>
      rw [hd.root_free] at hp
      cases hp
    | @part a' c _ _ j hac hx' hy' =>
      -- The node has one parent, and there one place.
      obtain rfl : a = a' :=
        Option.some.inj (hp.symm.trans (hd.parent_iff.mpr (List.mem_of_getElem? hx')))
      obtain rfl := ih hac
      have hi : i < (d.parts a).length := (List.getElem?_eq_some_iff.mp hx).1
      obtain rfl : i = j := (List.getElem?_inj hi (hd.parts_nodup a)).mp (hx.trans hx'.symm)
      exact Option.some.inj (hy.symm.trans hy')

theorem holds (hd : d.WellFormed) (h : Counterparts d e a b) : d.Holds a := by
  cases h with
  | root => exact hd.root_held
  | part i _ hx _ => exact hd.parts_held (List.mem_of_getElem? hx)

theorem value_eq (hd : d.WellFormed) (he : e.WellFormed) (hv : d.rootValue = e.rootValue)
    (h : Counterparts d e a b) : d.value a = e.value b := by
  induction h with
  | root => exact hv
  | @part a b x y i _ hx hy ih =>
    have hxy := forall₂_getElem? ((hd.value_eq_iff he.toLinked).mp ih).parts i
    rw [show (d.content a).parts[i]? = some x from hx, show (e.content b).parts[i]? = some y from hy] at hxy
    cases hxy with
    | some hxy => exact hxy

end Counterparts

/-- Well-formed documents of one value are alike, however each is stored. -/
theorem alike_of_rootValue {d e : Document} (hd : d.WellFormed) (he : e.WellFormed)
    (hv : d.rootValue = e.rootValue) : Alike (Counterparts d e) d e where
  left := hd
  right := he
  one_one := by
    intro a b a' b' hab hab'
    constructor
    · rintro rfl
      exact hab.unique hd hab'
    · rintro rfl
      exact hab.symm.unique he hab'.symm
  root := .root
  holds_left hab := hab.holds hd
  holds_right hab := hab.symm.holds he
  node {a b} hab := by
    have hc := (hd.value_eq_iff he.toLinked).mp (hab.value_eq hd he hv)
    exact ⟨hc.of_getElem? fun i x y hx hy _ => .part i hab hx hy, hab.parent hd he⟩

end Document

end Reshape
