/-
  Reshape.Proofs.Document.Contents — what a change leaves in the node whose parts it exchanges.

  `Editing` and `Changing` say that a change leaves all other nodes alone. What the one node
  that it does not leave alone holds afterwards is said here, by the members and items that
  stay and the keys they go by: a property that is removed or renamed, a node that leaves its
  parent, a node that joins an array. Of renamed properties it matters that keys are unique:
  the member found first under a key is then the only one (`Member.renamed`).

  - `content_removeProperty`, `content_renameProperty`, `content_push`, `content_append`.
  - `content_detach`, `content_rename`: the same at the parent of a node, told by the node and
    not by the key it goes by (`Content.omitting`, `Content.renamed`).
-/

import Reshape.Proofs.Document.Changing

namespace Reshape

/-! ## Members that go by another key -/

namespace Member

variable {α : Type} {old new : String} {ms : List (Member α)}

/-- The members with `new` for the key `old`, and without any other member of the key `new`. -/
def renamed (old new : String) (ms : List (Member α)) : List (Member α) :=
  (ms.filter fun m => m.key == old || m.key != new).map fun m =>
    if m.key = old then { m with key := new } else m

/-- Where keys are unique, the first member of a key is every member of it. -/
theorem rekey_eq_map (hn : (ms.map Member.key).Nodup) :
    rekey old new ms = ms.map fun m => if m.key = old then { m with key := new } else m := by
  induction ms with
  | nil => rfl
  | cons m rest ih =>
    rw [List.map_cons, List.nodup_cons] at hn
    rw [rekey, List.map_cons]
    split
    · rename_i e
      have hrest : old ∉ rest.map Member.key := e ▸ hn.1
      rw [← ih hn.2, rekey_of_absent hrest]
    · rw [ih hn.2]

/-- Where keys are unique, a member that is put in the place of another changes all of its key. -/
theorem put_eq_map {key : String} {position : Option Position} {v : α} (hn : (ms.map Member.key).Nodup)
    (hk : key ∈ ms.map Member.key) :
    put key position v ms = ms.map fun m => if m.key = key then { m with value := v } else m := by
  induction ms with
  | nil => cases hk
  | cons m rest ih =>
    rw [List.map_cons, List.nodup_cons] at hn
    rw [put, List.map_cons]
    split
    · rename_i e
      have hrest : ∀ n ∈ rest, (if n.key = key then { n with value := v } else n) = n := fun n hn' =>
        if_neg fun e' : n.key = key => hn.1 (e.trans e'.symm ▸ List.mem_map_of_mem hn')
      rw [List.map_congr_left hrest, List.map_id']
    · rename_i hne
      rw [List.map_cons, List.mem_cons] at hk
      rw [ih hn.2 (hk.resolve_left fun e => hne e.symm)]

theorem erase_of_absent {key : String} (h : key ∉ ms.map Member.key) : erase key ms = ms := by
  induction ms with
  | nil => rfl
  | cons m rest ih =>
    rw [List.map_cons, List.mem_cons, not_or] at h
    rw [erase, if_neg fun e => h.1 e.symm, ih h.2]

/-- Where neither keys nor values come twice, members are told apart by either. -/
theorem key_eq_iff (hk : (ms.map Member.key).Nodup) (hv : (ms.map Member.value).Nodup) {m n : Member α}
    (hm : m ∈ ms) (hn : n ∈ ms) : n.key = m.key ↔ n.value = m.value :=
  ⟨fun e => by rw [List.inj_on_of_nodup_map hk hn hm e], fun e => by rw [List.inj_on_of_nodup_map hv hn hm e]⟩

/-- A member that is told by its value is left out with its key. -/
theorem filter_key [DecidableEq α] {key : String} {v : α} (h : ∀ n ∈ ms, n.key = key ↔ n.value = v) :
    (ms.filter fun n => n.key != key) = ms.filter fun n => n.value != v := by
  refine List.filter_congr fun n hn => ?_
  simp only [bne, Bool.beq_eq_decide_eq, decide_eq_decide.mpr (h n hn)]

/-- Clearing the way for a key and then changing it comes to the members with the key changed. -/
theorem rekey_erase (hn : (ms.map Member.key).Nodup) (hne : old ≠ new) :
    rekey old new (erase new ms) = renamed old new ms := by
  rw [rekey_eq_map (hn.sublist ((erase_sublist new ms).map _)), erase_eq_filter hn, renamed]
  congr 1
  refine List.filter_congr fun m _ => ?_
  by_cases e : m.key = old
  · simp [e, hne]
  · simp [e]

@[simp] theorem renamed_self (old : String) (ms : List (Member α)) : renamed old old ms = ms := by
  have hall : ms.filter (fun m => m.key == old || m.key != old) = ms :=
    List.filter_eq_self.mpr fun m _ => by by_cases e : m.key = old <;> simp [e]
  rw [renamed, hall]
  conv_rhs => rw [← List.map_id ms]
  refine List.map_congr_left fun m _ => ?_
  obtain ⟨key, position, value⟩ := m
  by_cases e : key = old <;> simp [e]

end Member

/-! ## Contents without a part, or with another key for it -/

namespace Content

def omitting (part : NodeId) : Content NodeId → Content NodeId
  | .scalar s => .scalar s
  | .array items => .array (items.filter fun x => x != part)
  | .object members => .object (members.filter fun m => m.value != part)

/-- The content in which one part has been given names, one after the other: it goes by the last of
    them, and no other part is left under any of them. Only the members of an object have names. -/
def renamed (part : NodeId) (names : List String) : Content NodeId → Content NodeId
  | .object members => .object <|
      (members.filter fun m => m.value == part || !names.contains m.key).map fun m =>
        if m.value = part then { m with key := names.getLast?.getD m.key } else m
  | c => c

variable {part : NodeId} {c : Content NodeId}

theorem not_mem_parts_omitting : part ∉ (c.omitting part).parts := by
  cases c <;> simp [omitting, parts]

theorem parts_omitting_subset {x : NodeId} (h : x ∈ (c.omitting part).parts) : x ∈ c.parts := by
  cases c with
  | scalar s => exact h
  | array items => exact (List.mem_filter.mp h).1
  | object members => exact (List.filter_sublist.map Member.value).subset h

@[simp] theorem renamed_nil : c.renamed part [] = c := by
  cases c <;> simp [renamed]

/-- A member that is told by its value is given a name as it is told by its key. -/
theorem object_renamed {old new : String} {ms : List (Member NodeId)}
    (h : ∀ n ∈ ms, n.key = old ↔ n.value = part) :
    .object (Member.renamed old new ms) = (Content.object ms).renamed part [new] := by
  have hstay : ∀ n ∈ ms, (n.key == old || n.key != new) = (n.value == part || !([new].contains n.key)) := by
    intro n hn
    have hiff := h n hn
    by_cases e : n.value = part
    · simp [e, hiff.mpr e]
    · have hk : n.key ≠ old := fun e' => e (hiff.mp e')
      simp [beq_false_of_ne e, beq_false_of_ne hk, bne, Bool.beq_eq_decide_eq]
  rw [renamed, Member.renamed, List.filter_congr hstay]
  refine congrArg Content.object (List.map_congr_left fun n hn => ?_)
  exact if_congr (h n (List.mem_filter.mp hn).1) rfl rfl

/-- Names given in two turns are names given in one. -/
theorem renamed_concat (names : List String) (name : String) :
    (c.renamed part names).renamed part [name] = c.renamed part (names ++ [name]) := by
  cases c with
  | object members =>
    simp only [renamed, List.filter_map, List.filter_filter, List.map_map]
    refine congrArg Content.object ?_
    have hsame : ∀ m : Member NodeId, (if m.value = part then
        { m with key := names.getLast?.getD m.key } else m).value = m.value := fun m => by split <;> rfl
    refine congr (congrArg List.map (funext fun m => ?_)) (List.filter_congr fun m _ => ?_)
    · by_cases e : m.value = part <;> simp [e]
    · by_cases e : m.value = part
      · simp [e]
      · simp [e, beq_false_of_ne e, Bool.and_comm]
  | _ => rfl

end Content

namespace Document

variable {d d' : Document} {object array id owner x : NodeId} {key old new : String}

/-! ## Properties -/

theorem content_removeProperty (hd : d.removeProperty? object key = some d') (x : NodeId) :
    d'.content x = if x = object then .object (Member.erase key (d.members object)) else d.content x := by
  obtain ⟨m, hms, -, rfl⟩ := removeProperty?_eq_some hd
  have ho : d.Holds object := holds_of_isObject (by simp [isObject, hms, Content.isObject])
  simp [ho]

theorem position_removeProperty (hd : d.removeProperty? object key = some d') (x : NodeId) :
    d'.position x = d.position x := by
  obtain ⟨m, -, -, rfl⟩ := removeProperty?_eq_some hd
  simp

/-- Only an object that has the property can lose it. -/
theorem removeProperty?_eq_none_iff (ho : d.isObject object = true) :
    d.removeProperty? object key = none ↔ key ∉ (d.members object).map Member.key := by
  rw [removeProperty?, content_of_isObject ho]
  simp [Member.find?_eq_none_iff]

theorem removeProperty?_of_not_isObject (ho : ¬ d.isObject object = true) :
    d.removeProperty? object key = none := by
  unfold removeProperty?
  cases hc : d.content object with
  | object ms => exact absurd (by simp [isObject, hc, Content.isObject]) ho
  | _ => rfl

/-- An object without a property, whether or not it has had it. -/
theorem content_remove (ho : d.isObject object = true) (key : String) (x : NodeId) :
    ((d.removeProperty? object key).getD d).content x =
      if x = object then .object (Member.erase key (d.members object)) else d.content x := by
  cases hd : d.removeProperty? object key with
  | some d' => exact content_removeProperty hd x
  | none =>
    rw [Option.getD_none, Member.erase_of_absent ((removeProperty?_eq_none_iff ho).mp hd),
      ← content_of_isObject ho]
    split
    · rename_i hx
      rw [hx]
    · rfl

theorem renameProperty?_eq_none_iff : d.renameProperty? object old new = none ↔ d.get? object old = none := by
  unfold renameProperty?
  cases d.get? object old with
  | none => simp
  | some v =>
    simp only [reduceCtorEq, iff_false]
    split <;> simp

/-- A renamed property keeps its place and its key position, and another property of its new name is dropped. -/
theorem Linked.content_renameProperty (h : d.Linked) (hd : d.renameProperty? object old new = some d')
    (x : NodeId) :
    d'.content x = if x = object then .object (Member.renamed old new (d.members object))
      else d.content x := by
  unfold renameProperty? at hd
  split at hd
  · cases hd
  · rename_i v hv
    have ho := isObject_of_get? hv
    split at hd
    · rename_i e
      obtain rfl := Option.some.inj hd
      rw [e, Member.renamed_self, ← content_of_isObject ho]
      split
      · rename_i hx
        rw [hx]
      · rfl
    · rename_i hne
      obtain rfl := Option.some.inj hd
      have hcleared := content_remove ho new
      have hsite := (hcleared object).trans (if_pos rfl)
      have hobj : ((d.removeProperty? object new).getD d).Holds object :=
        holds_of_isObject (by rw [isObject, hsite]; rfl)
      rw [content_withContent, members_of_object hsite, Member.rekey_erase (h.keys_nodup object) hne]
      by_cases hx : x = object
      · rw [if_pos ⟨hx, hobj⟩, if_pos hx]
      · rw [if_neg fun hand => hx hand.1, if_neg hx, hcleared, if_neg hx]

theorem position_renameProperty (hd : d.renameProperty? object old new = some d') (x : NodeId) :
    d'.position x = d.position x := by
  unfold renameProperty? at hd
  split at hd
  · cases hd
  · split at hd <;> obtain rfl := Option.some.inj hd
    · rfl
    · rw [position_withContent]
      cases hr : d.removeProperty? object new with
      | none => rfl
      | some cleared => exact position_removeProperty hr x

/-! ## Items -/

theorem content_push (ha : d.isArray array = true) (value x : NodeId) :
    (d.push array value).content x =
      if x = array then .array (d.items array ++ [value]) else d.content x := by
  simp [push, content_of_isArray ha, holds_of_isArray ha]

theorem push_of_not_isArray {value : NodeId} (ha : ¬ d.isArray array = true) : d.push array value = d := by
  unfold push
  cases hc : d.content array with
  | array items => exact absurd (by simp [isArray, hc, Content.isArray]) ha
  | _ => rfl

/-- What is no array takes no items. -/
theorem content_append_of_not_isArray (hh : d.Holds array) (ha : ¬ d.isArray array = true)
    (items : List Tree) : (d.append array items).content array = d.content array := by
  induction items generalizing d with
  | nil => rfl
  | cons t rest ih =>
    have hadd : (d.add t none).content array = d.content array := by
      rw [content, node_add_held t none hh]; rfl
    have ha' : ¬ (d.add t none).isArray array = true := by rwa [isArray, hadd]
    show (((d.add t none).push array d.nextId).append array rest).content array = _
    rw [push_of_not_isArray ha', ih (holds_add t none hh) ha', hadd]

/-! ## The parent of a node -/

/-- The members of an object are told apart by their keys, and by what they hold. -/
theorem Linked.key_eq_iff (h : d.Linked) (hp : d.content owner = .object (d.members owner)) {m n : Member NodeId}
    (hm : m ∈ d.members owner) (hn : n ∈ d.members owner) : n.key = m.key ↔ n.value = m.value :=
  Member.key_eq_iff (h.keys_nodup owner) (parts_of_object hp ▸ h.parts_nodup owner) hm hn

/-- The property that holds a node is found under its key, and by the node. -/
theorem WellFormed.slot_listed (h : d.WellFormed) (hp : d.parent id = some owner)
    (hs : d.slot id = .property object key) :
    object = owner ∧ d.get? owner key = some id ∧ ∀ n ∈ d.members owner, n.key = key ↔ n.value = id := by
  obtain ⟨hp', m, hm, rfl⟩ := h.slot_property hs
  obtain rfl : object = owner := Option.some.inj (hp'.symm.trans hp)
  have hg : d.get? object key = some m.value := by rw [get?, member?, hm]; rfl
  obtain ⟨hmem, rfl⟩ := Member.find?_mem hm
  exact ⟨rfl, hg, fun n hn => h.key_eq_iff (content_of_isObject (isObject_of_get? hg)) hmem hn⟩

/-- A node that leaves its parent leaves the rest of its content as it was. -/
theorem WellFormed.content_detach (h : d.WellFormed) (hp : d.parent id = some owner) (x : NodeId) :
    (d.perform (.detach id)).content x =
      if x = owner then (d.content owner).omitting id else d.content x := by
  show ((d.detach? id).getD d).content x = _
  cases hs : d.slot id with
  | none => exact absurd hs (h.slot_ne_none hp)
  | property object key =>
    obtain ⟨rfl, hg, hiff⟩ := h.slot_listed hp hs
    have ho := isObject_of_get? hg
    have hdet : d.detach? id = d.removeProperty? object key := by simp only [detach?, hs]
    rw [hdet, content_remove ho, content_of_isObject ho, Content.omitting,
      Member.erase_eq_filter (h.keys_nodup object), Member.filter_key hiff]
  | element array index =>
    obtain ⟨hp', hc, he⟩ := slot_element hs
    obtain rfl : owner = array := Option.some.inj (hp.symm.trans hp')
    have hn : (d.items owner).Nodup := parts_of_array hc ▸ h.parts_nodup owner
    have hdet : d.detach? id =
        some ((d.withContent owner (.array ((d.items owner).erase id))).withParent id none) := by
      simp only [detach?, hs, he]
    rw [hdet, Option.getD_some, hc, Content.omitting, hn.erase_eq_filter]
    simp [h.holds_owner hp]

theorem position_detach (d : Document) (id x : NodeId) :
    (d.perform (.detach id)).position x = d.position x := by
  show ((d.detach? id).getD d).position x = _
  cases hd : d.detach? id with
  | none => rfl
  | some d' =>
    unfold detach? at hd
    split at hd
    · cases hd
    · exact position_removeProperty hd x
    · obtain rfl := Option.some.inj hd
      simp

/-- A node whose property gets another name takes the place of the part that had the name. -/
theorem WellFormed.content_rename (h : d.WellFormed) (hp : d.parent id = some owner) (name : String)
    (x : NodeId) :
    (d.perform (.rename id name)).content x =
      if x = owner then (d.content owner).renamed id [name] else d.content x := by
  show ((d.renameHolder? id name).getD d).content x = _
  cases hs : d.slot id with
  | none => exact absurd hs (h.slot_ne_none hp)
  | property object key =>
    obtain ⟨rfl, hg, hiff⟩ := h.slot_listed hp hs
    have hhold : d.renameHolder? id name = some ((d.renameProperty? object key name).getD d) := by
      simp only [renameHolder?, hs]
    rw [hhold, Option.getD_some]
    cases hd : d.renameProperty? object key name with
    | none => rw [renameProperty?_eq_none_iff.mp hd] at hg; cases hg
    | some d' =>
      rw [Option.getD_some, h.content_renameProperty hd, content_of_isObject (isObject_of_get? hg),
        Content.object_renamed hiff]
  | element array index =>
    obtain ⟨hp', hc, -⟩ := slot_element hs
    obtain rfl : owner = array := Option.some.inj (hp.symm.trans hp')
    have hhold : d.renameHolder? id name = none := by simp only [renameHolder?, hs]
    rw [hhold, hc]
    split
    · rename_i hx
      rw [hx]; exact hc
    · rfl

theorem position_rename (d : Document) (id : NodeId) (name : String) (x : NodeId) :
    (d.perform (.rename id name)).position x = d.position x := by
  show ((d.renameHolder? id name).getD d).position x = _
  unfold renameHolder?
  cases d.slot id with
  | property object key =>
    cases hd : d.renameProperty? object key name with
    | none => simp [hd]
    | some d' => simpa [hd] using position_renameProperty hd x
  | _ => rfl

end Document

end Reshape
