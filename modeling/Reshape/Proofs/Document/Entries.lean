/-
  Reshape.Proofs.Document.Entries — the members of an object, as values.

  Bringing data together is a matter of values: which keys an object has, in which order,
  and the value under each (`Document.entries`). A change that stays below one member's
  value gives that key another value and leaves everything else (`entries_of_child`), and
  one literal member is brought in as `Value.enter` says (`literal_entries`).

  - `Framed d top d'`: all that differs is what is under `top`.
-/

import Reshape.Proofs.Document.Scope
import Reshape.Proofs.Json.DeepMerge
import Reshape.Transform.Verbs

namespace Reshape

/-! ## The values of trees -/

namespace Tree

theorem entry_mem {members : List (Member Tree)} {m : Member Tree} (h : m ∈ members) :
    (m.key, m.value.value) ∈ members.map fun m => (m.key, m.value.value) :=
  List.mem_map_of_mem (f := fun m : Member Tree => (m.key, m.value.value)) h

theorem keys_of_entries (members : List (Member Tree)) :
    (members.map fun m => (m.key, m.value.value)).map Prod.fst = members.map Member.key := by
  rw [List.map_map]
  rfl

theorem value_of_isObject {t : Tree} (h : t.isObject = true) :
    t.value = .object (t.members.map fun m => (m.key, m.value.value)) := by
  obtain ⟨position, content⟩ := t
  cases content with
  | object members => simp [value, memberValues_eq, Tree.members, Content.members]
  | _ => cases h

theorem value_of_isArray {t : Tree} (h : t.isArray = true) : t.value = .array (t.items.map value) := by
  obtain ⟨position, content⟩ := t
  cases content with
  | array items => simp [value, itemValues_eq, Tree.items, Content.items]
  | _ => cases h

theorem isObject_iff_value {t : Tree} : t.isObject = true ↔ ∃ ms, t.value = .object ms := by
  obtain ⟨position, content⟩ := t
  cases content <;> simp [value, isObject, Content.isObject]

theorem isArray_iff_value {t : Tree} : t.isArray = true ↔ ∃ items, t.value = .array items := by
  obtain ⟨position, content⟩ := t
  cases content <;> simp [value, isArray, Content.isArray]

theorem bothObjects_iff {t u : Tree} :
    Value.BothObjects t.value u.value ↔ (t.isObject && u.isObject) = true := by
  rw [Value.BothObjects, ← isObject_iff_value, ← isObject_iff_value, Bool.and_eq_true]

/-- An array takes another's items behind its own. -/
theorem absorb_arrays {t u : Tree} (ht : t.isArray = true) (hu : u.isArray = true) :
    Value.absorb t.value u.value = .array ((t.items ++ u.items).map value) := by
  rw [value_of_isArray ht, value_of_isArray hu, List.map_append]
  rfl

/-- What is neither two arrays nor two objects gives way. -/
theorem absorb_others {t u : Tree} (ha : ¬ (t.isArray && u.isArray) = true)
    (ho : ¬ (t.isObject && u.isObject) = true) : Value.absorb t.value u.value = u.value := by
  rw [Bool.and_eq_true, isArray_iff_value, isArray_iff_value] at ha
  rw [Bool.and_eq_true, isObject_iff_value, isObject_iff_value] at ho
  cases htv : t.value with
  | scalar s => rfl
  | array xs =>
    cases huv : u.value with
    | array ys => exact absurd ⟨⟨xs, htv⟩, ys, huv⟩ ha
    | _ => rfl
  | object ms =>
    cases huv : u.value with
    | object ns => exact absurd ⟨⟨ms, htv⟩, ns, huv⟩ ho
    | _ => rfl

end Tree

namespace Document

/-! ## Entries -/

def entries (d : Document) (id : NodeId) : List (String × Value) :=
  (d.members id).map fun m => (m.key, d.value m.value)

variable {d d' : Document} {node child : NodeId} {key : String}

theorem Linked.value_of_isObject (h : d.Linked) (ho : d.isObject node = true) :
    d.value node = .object (d.entries node) := by
  rw [value, Tree.value_of_isObject ((h.tree_isObject node).trans ho), h.tree_members, List.map_map]
  rfl

theorem Linked.value_isObject (h : d.Linked) (node : NodeId) :
    d.isObject node = true ↔ ∃ ms, d.value node = .object ms := by
  rw [← h.tree_isObject, Tree.isObject_iff_value]
  rfl

@[simp] theorem keys_entries : (d.entries node).map Prod.fst = (d.members node).map Member.key := by
  rw [entries, List.map_map]
  rfl

theorem Linked.entries_nodup (h : d.Linked) (node : NodeId) : ((d.entries node).map Prod.fst).Nodup :=
  keys_entries ▸ h.keys_nodup node

theorem member?_map_members (f : NodeId → Value) (ms : List (Member NodeId)) :
    Value.member? key (ms.map fun m => (m.key, f m.value)) =
      ((Member.find? key ms).map Member.value).map f := by
  induction ms with
  | nil => rfl
  | cons m rest ih =>
    rw [List.map_cons, Value.member?_cons, ih, Member.find?]
    split <;> rfl

theorem member?_entries : Value.member? key (d.entries node) = (d.get? node key).map d.value :=
  member?_map_members d.value (d.members node)

/-! ## What stays the same -/

/-- `d'` has come from `d` by changes to what is under `top`. -/
structure Framed (d : Document) (top : NodeId) (d' : Document) : Prop extends Grown d d' where
  wellFormed : d'.WellFormed
  elsewhere : ∀ {id}, d.Holds id → ¬ d.Under top id →
    d'.content id = d.content id ∧ d'.position id = d.position id

namespace Framed

variable {top : NodeId} {d'' : Document}

theorem refl (h : d.WellFormed) (top : NodeId) : Framed d top d where
  toGrown := .refl d
  wellFormed := h
  elsewhere _ _ := ⟨rfl, rfl⟩

theorem trans (h : Framed d top d') (hd : d.Linked) (h' : Framed d' top d'') : Framed d top d'' where
  toGrown := h.toGrown.trans h'.toGrown
  wellFormed := h'.wellFormed
  elsewhere hh hu := by
    have hu' := fun hn => hu (h.toGrown.under hd hh hn)
    exact ⟨(h'.elsewhere (h.holds hh) hu').1.trans (h.elsewhere hh hu).1,
      (h'.elsewhere (h.holds hh) hu').2.trans (h.elsewhere hh hu).2⟩

/-- What is under a node is under whatever is above it. -/
theorem up (h : Framed d child d') (hu : d.Under top child) : Framed d top d' where
  toGrown := h.toGrown
  wellFormed := h.wellFormed
  elsewhere hh hn := h.elsewhere hh fun hc => hn (hc.trans hu)

end Framed

theorem Edited.framed (h : Edited d d' node) : Framed d node d' where
  toGrown := h.grown
  wellFormed := h.wellFormed
  elsewhere hh hu := h.elsewhere hh fun e => hu (e ▸ .refl)

/-- A change to what is under one member's value gives that key another value, and no more. -/
theorem Framed.entries_of_child (hf : Framed d child d') (h : d.WellFormed)
    (hg : d.get? node key = some child) :
    d'.content node = d.content node ∧
      d'.entries node = Value.update key (d'.value child) (d.entries node) := by
  have hpart := mem_parts_of_get? hg
  have hobj := isObject_of_get? hg
  have hnode : d'.content node = d.content node :=
    (hf.elsewhere (holds_of_isObject hobj) (h.not_under_part hpart)).1
  refine ⟨hnode, ?_⟩
  obtain ⟨m, hm, rfl⟩ := get?_eq_some hg
  obtain ⟨hmem, hmk⟩ := Member.find?_mem hm
  rw [entries, entries, Value.update, List.map_map, members_eq_of_content hnode]
  refine List.map_congr_left fun n hn => ?_
  simp only [Function.comp_apply]
  split
  · rename_i hk
    have hnm := (Member.find?_of_mem (h.keys_nodup node) hn).symm.trans (hk.trans hmk.symm ▸ hmk.symm ▸ hm)
    obtain rfl := Option.some.inj hnm
    rw [hk]
  · rename_i hk
    -- The value under another key has another place, so it is not under the child.
    have hnp := mem_parts_of_mem_members hn
    have hne : n.value ≠ m.value := by
      intro e
      have hvals : ((d.members node).map Member.value).Nodup :=
        parts_of_object (content_of_isObject hobj) ▸ h.parts_nodup node
      exact hk (List.inj_on_of_nodup_map hvals hn hmem e ▸ hmk)
    have hsame : d'.tree n.value = d.tree n.value := by
      refine tree_congr h.toLinked hf.wellFormed.toLinked n.value fun x hx => ?_
      exact hf.elsewhere (holds_of_under (h.parts_held hnp) hx) fun hu =>
        hne (h.eq_of_under_parts hnp hpart hx hu)
    rw [value, value, hsame]

/-! ## Bringing in a literal member -/

/-- The value under one key is changed by a change to the node that holds it. -/
theorem WellFormed.child_entered (h : d.WellFormed) (hg : d.get? node key = some child)
    (he : Edited d d' child) {v : Value} (hv : d'.value child = Value.absorb (d.value child) v) :
    Framed d node d' ∧ d'.isObject node = true ∧
      d'.entries node = Value.enter (d.entries node) (key, v) := by
  have hup : d.Under node child := .single (h.parent_iff.mpr (mem_parts_of_get? hg))
  obtain ⟨hc, hentries⟩ := he.framed.entries_of_child h hg
  refine ⟨he.framed.up hup, ?_, ?_⟩
  · rw [isObject, hc]
    exact isObject_of_get? hg
  · rw [hentries, hv, Value.enter]
    simp only [member?_entries, hg, Option.map_some]

/-- A member under a new key follows those that were there. -/
theorem WellFormed.member_entered (h : d.WellFormed) (ho : d.isObject node = true) {m : Member Tree}
    (hm : m.value.Keyed) (hg : d.get? node m.key = none) :
    Framed d node (d.perform (.insert node m)) ∧ (d.perform (.insert node m)).isObject node = true ∧
      (d.perform (.insert node m)).entries node = Value.enter (d.entries node) (m.key, m.value.value) := by
  have he := h.insert_edited (holds_of_isObject ho) hm
  obtain ⟨hc, hnew⟩ := h.insert_members ho hm
  have habsent : m.key ∉ (d.members node).map Member.key := by
    rw [← keys_entries, ← Value.member?_eq_none_iff, member?_entries, hg]
    rfl
  rw [Member.put_of_absent habsent] at hc
  refine ⟨he.framed, by rw [isObject, hc]; rfl, ?_⟩
  rw [entries, members_of_object hc, List.map_append, Value.enter, member?_entries, hg]
  refine congr (congrArg _ (List.map_congr_left fun n hn => ?_)) ?_
  · have hpart := mem_parts_of_mem_members hn
    rw [value, value, he.tree_eq h.toLinked (h.parts_held hpart) (h.not_under_part hpart)]
  · simp only [List.map_cons, List.map_nil, value, hnew]

def bringIn (d : Document) (node : NodeId) (m : Member Tree) : Document :=
  match d.literalChange? node m with
  | some c => d.perform c
  | none => d

/-- A literal member is brought in as `Value.enter` says. -/
theorem WellFormed.literal_entries (h : d.WellFormed) (ho : d.isObject node = true) {m : Member Tree}
    (hm : m.value.Keyed) :
    Framed d node (d.bringIn node m) ∧ (d.bringIn node m).isObject node = true ∧
      (d.bringIn node m).entries node = Value.enter (d.entries node) (m.key, m.value.value) := by
  unfold bringIn literalChange?
  cases hg : d.get? node m.key with
  | none => exact h.member_entered ho hm hg
  | some child =>
    have hh := h.parts_held (mem_parts_of_get? hg)
    by_cases harr : (d.isArray child && m.value.isArray) = true
    · simp only [harr, if_true]
      rw [Bool.and_eq_true] at harr
      obtain ⟨ha, hitems⟩ := h.tree_append harr.1 fun t ht => hm.item ht
      have he := h.append_edited hh fun t ht => hm.item ht
      refine h.child_entered hg he ?_
      have hat := (h.tree_isArray child).trans harr.1
      rw [value, Tree.value_of_isArray ((he.wellFormed.tree_isArray child).trans ha), hitems, value,
        Tree.absorb_arrays hat harr.2]
    · simp only [harr, Bool.false_eq_true, if_false]
      have harr' : ¬ ((d.tree child).isArray && m.value.isArray) = true := by rwa [h.tree_isArray]
      by_cases hobj : (d.isObject child && m.value.isObject) = true
      · simp only [hobj, if_true]
        have hobj' : Value.BothObjects (d.value child) m.value.value :=
          Tree.bothObjects_iff.mpr (by rwa [h.tree_isObject])
        exact h.child_entered hg (.refl h child) (Value.absorb_of_bothObjects hobj').symm
      · simp only [hobj, Bool.false_eq_true, if_false]
        have hobj' : ¬ ((d.tree child).isObject && m.value.isObject) = true := by rwa [h.tree_isObject]
        refine h.child_entered hg (h.overwrite_edited hh hm) ?_
        show ((d.replace child m.value).tree child).value = Value.absorb (d.tree child).value m.value.value
        rw [tree_overwrite h hh hm, Tree.absorb_others harr' hobj']

/-- What is no object stays as it is when a literal member is to be brought in. -/
theorem WellFormed.literal_elsewhere (h : d.WellFormed) (hh : d.Holds node)
    (ho : ¬ d.isObject node = true) {m : Member Tree} (hm : m.value.Keyed) :
    (d.bringIn node m).WellFormed ∧ Grown d (d.bringIn node m) ∧
      (d.bringIn node m).content node = d.content node := by
  have hg : d.get? node m.key = none := by
    cases hg : d.get? node m.key with
    | none => rfl
    | some child => exact absurd (isObject_of_get? hg) ho
  have hbring : d.bringIn node m = (d.add m.value none).setProperty node m.key m.position d.nextId := by
    simp only [bringIn, literalChange?, hg]
    rfl
  have hadd : (d.add m.value none).content node = d.content node := by
    rw [content, node_add_held m.value none hh]; rfl
  rw [hbring, setProperty_of_not_isObject m.key m.position (by rwa [isObject, hadd])]
  exact ⟨h.add hm, (h.add_edited hm node).grown, hadd⟩

end Document

end Reshape
