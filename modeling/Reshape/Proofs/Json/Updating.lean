/-
  Reshape.Proofs.Json.Updating — changing a value at one location.

  The pure counterparts of what a document does in place: a member is set in its place or at
  the end, removed, or renamed in its place with another member of the new name dropped; an
  array takes items behind its own; a value inside another is changed where it stands or taken
  out. What does not fit the kind of value it is asked of does nothing.

  - `Value.modifyAt`, `Value.deleteAt`: what happens at a location, all else being kept. A whole
    value is not in anything that it could be taken out of.
  - `Content.toValue` reads a content whose parts have been read. The changes to contents come to
    the changes of values (`toValue_put`, `toValue_erase`, `toValue_renamed`, `toValue_omitting`),
    and a change to one part to a change at one step (`toValue_modify`).
-/

import Reshape.Path.Query
import Reshape.Proofs.Document.Contents
import Reshape.Proofs.Json.DeepMerge

namespace Reshape

/-! ## Changes to a value -/

namespace Value

def setMember (key : String) (w : Value) : Value → Value
  | .object members =>
    .object (if key ∈ members.map Prod.fst then update key w members else members ++ [(key, w)])
  | v => v

/-- The object with the member `old` called `new`, in its place, and without another member of that name. -/
def renameMember (old new : String) : Value → Value
  | .object members =>
    .object (if old ∈ members.map Prod.fst then
        (members.filter fun e => e.1 == old || e.1 != new).map fun e => if e.1 = old then (new, e.2) else e
      else members)
  | v => v

def addItems (more : List Value) : Value → Value
  | .array items => .array (items ++ more)
  | v => v

def removeChild : Step → Value → Value
  | .key k, .object members => .object (members.filter fun e => e.1 != k)
  | .index i, .array items => .array (items.eraseIdx i)
  | _, v => v

def modifyChild (f : Value → Value) : Step → Value → Value
  | .key k, .object members => .object (members.map fun e => if e.1 = k then (k, f e.2) else e)
  | .index i, .array items => .array (items.modify i f)
  | _, v => v

def modifyAt (f : Value → Value) : Location → Value → Value
  | [], v => f v
  | s :: rest, v => v.modifyChild (modifyAt f rest) s

/-- The value without what a location leads to. The whole value stays. -/
def deleteAt : Location → Value → Value
  | [], v => v
  | [s], v => v.removeChild s
  | s :: rest, v => v.modifyChild (deleteAt rest) s

/-- To take a part out is to change the value that it is a part of. -/
theorem deleteAt_concat (l : Location) (s : Step) : deleteAt (l ++ [s]) = modifyAt (removeChild s) l := by
  induction l with
  | nil => rfl
  | cons t rest ih =>
    funext v
    obtain ⟨u, more, e⟩ : ∃ u more, rest ++ [s] = u :: more := List.exists_cons_of_ne_nil (by simp)
    rw [List.cons_append, e, deleteAt, modifyAt, ← ih, e]
    · simp

/-! ### What does not fit -/

section Unfit

variable {v : Value} (key old new : String)

theorem setMember_of_not_object (h : ∀ ms, v ≠ .object ms) (w : Value) : setMember key w v = v := by
  cases v with
  | object ms => exact absurd rfl (h ms)
  | _ => rfl

theorem removeMember_of_not_object (h : ∀ ms, v ≠ .object ms) : removeChild (.key key) v = v := by
  cases v with
  | object ms => exact absurd rfl (h ms)
  | _ => rfl

theorem renameMember_of_not_object (h : ∀ ms, v ≠ .object ms) : renameMember old new v = v := by
  cases v with
  | object ms => exact absurd rfl (h ms)
  | _ => rfl

theorem addItems_of_not_array (h : ∀ items, v ≠ .array items) (more : List Value) : addItems more v = v := by
  cases v with
  | array items => exact absurd rfl (h items)
  | _ => rfl

end Unfit

end Value

/-! ## Contents whose parts have been read -/

namespace Content

variable {α : Type}

def child? : Content α → Step → Option α
  | .object members, .key k => (Member.find? k members).map Member.value
  | .array items, .index i => items[i]?
  | _, _ => none

def toValue : Content Value → Value
  | .scalar s => .scalar s
  | .array items => .array items
  | .object members => .object (members.map fun m => (m.key, m.value))

variable {f g : α → Value} {key old new : String} {c : Content α} {ms : List (Member α)} {s : Step} {x : α}

theorem toValue_object (f : α → Value) (ms : List (Member α)) :
    ((Content.object ms).map f).toValue = .object (ms.map fun m => (m.key, f m.value)) := by
  simp [map, toValue]

theorem keys_values (f : α → Value) (ms : List (Member α)) :
    (ms.map fun m => (m.key, f m.value)).map Prod.fst = ms.map Member.key := by
  simp

/-- The parts of the value that a content is read as are what its parts are read as. -/
theorem child?_toValue (c : Content α) (f : α → Value) (s : Step) :
    (c.map f).toValue.child? s = (c.child? s).map f := by
  cases c with
  | scalar _ => cases s <;> rfl
  | array items => cases s <;> simp [map, toValue, Value.child?, child?]
  | object ms =>
    cases s with
    | index i => rfl
    | key k =>
      rw [toValue_object, Value.child?, child?]
      induction ms with
      | nil => rfl
      | cons m rest ih =>
        rw [List.map_cons, Value.member?_cons, Member.find?]
        split <;> simp [ih]

theorem mem_parts_of_child? (h : c.child? s = some x) : x ∈ c.parts := by
  cases c <;> cases s <;> simp only [child?, Option.map_eq_some_iff, reduceCtorEq] at h
  · exact List.mem_of_getElem? h
  · obtain ⟨m, hm, rfl⟩ := h
    exact List.mem_map_of_mem (Member.find?_mem hm).1

theorem exists_child? (hk : (c.members.map Member.key).Nodup) (h : x ∈ c.parts) :
    ∃ s, c.child? s = some x := by
  cases c with
  | scalar _ => cases h
  | array items =>
    obtain ⟨i, hi⟩ := List.getElem?_of_mem h
    exact ⟨.index i, hi⟩
  | object ms =>
    obtain ⟨m, hm, rfl⟩ := List.mem_map.mp h
    have hf : Member.find? m.key ms = some m := Member.find?_of_mem hk hm
    exact ⟨.key m.key, by rw [child?, hf]; rfl⟩

/-! ### One change after another -/

theorem toValue_put (hk : (ms.map Member.key).Nodup) (f : α → Value) (position : Option Position) :
    ((Content.object (Member.put key position x ms)).map f).toValue =
      Value.setMember key (f x) ((Content.object ms).map f).toValue := by
  rw [toValue_object, toValue_object, Value.setMember, keys_values]
  split
  · rename_i hmem
    rw [Member.put_eq_map hk hmem, List.map_map, Value.update, List.map_map]
    refine congrArg Value.object (List.map_congr_left fun m _ => ?_)
    by_cases e : m.key = key <;> simp [e]
  · rename_i habsent
    simp [Member.put_of_absent habsent]

theorem toValue_erase (hk : (ms.map Member.key).Nodup) (f : α → Value) :
    ((Content.object (Member.erase key ms)).map f).toValue =
      ((Content.object ms).map f).toValue.removeChild (.key key) := by
  rw [toValue_object, toValue_object, Value.removeChild, Member.erase_eq_filter hk, List.filter_map]
  rfl

theorem toValue_renamed (ho : old ∈ ms.map Member.key) (f : α → Value) :
    ((Content.object (Member.renamed old new ms)).map f).toValue =
      ((Content.object ms).map f).toValue.renameMember old new := by
  rw [toValue_object, toValue_object, Value.renameMember, keys_values, if_pos ho, Member.renamed, List.map_map,
    List.filter_map, List.map_map]
  refine congrArg Value.object (List.map_congr_left fun m _ => ?_)
  by_cases e : m.key = old <;> simp [e]

theorem toValue_items (f : α → Value) (items more : List α) :
    ((Content.array (items ++ more)).map f).toValue =
      ((Content.array items).map f).toValue.addItems (more.map f) := by
  simp [map, toValue, Value.addItems]

end Content

namespace Content

variable {f g : NodeId → Value} {F : Value → Value} {c : Content NodeId} {s : Step} {x : NodeId}

/-- A content without a part reads as the value without what the step to the part leads to. -/
theorem toValue_omitting (hk : (c.members.map Member.key).Nodup) (hp : c.parts.Nodup)
    (hx : c.child? s = some x) (f : NodeId → Value) :
    ((c.omitting x).map f).toValue = (c.map f).toValue.removeChild s := by
  cases c <;> cases s <;> simp only [child?, Option.map_eq_some_iff, reduceCtorEq] at hx
  · rename_i items i
    obtain ⟨hi, rfl⟩ := List.getElem?_eq_some_iff.mp hx
    have hn : items.Nodup := hp
    simp [omitting, map, toValue, Value.removeChild, ← hn.erase_eq_filter, hn.erase_getElem, List.eraseIdx_map]
  · rename_i ms k
    obtain ⟨m, hm, rfl⟩ := hx
    obtain ⟨hmem, rfl⟩ := Member.find?_mem hm
    have hiff : ∀ n ∈ ms, n.key = m.key ↔ n.value = m.value := fun n hn => Member.key_eq_iff hk hp hmem hn
    rw [omitting, toValue_object, toValue_object, Value.removeChild, List.filter_map, ← Member.filter_key hiff]
    rfl

/-- Where one part is read as something else, so is what the step to it leads to. -/
theorem toValue_modify (hk : (c.members.map Member.key).Nodup) (hp : c.parts.Nodup)
    (hx : c.child? s = some x) (hself : g x = F (f x)) (hothers : ∀ y ∈ c.parts, y ≠ x → g y = f y) :
    (c.map g).toValue = (c.map f).toValue.modifyChild F s := by
  cases c <;> cases s <;> simp only [child?, Option.map_eq_some_iff, reduceCtorEq] at hx
  · rename_i items i
    refine congrArg Value.array (List.ext_getElem? fun j => ?_)
    rw [List.getElem?_modify, List.getElem?_map, List.getElem?_map]
    cases hj : items[j]? with
    | none => rfl
    | some y =>
      by_cases e : i = j
      · obtain rfl : x = y := Option.some.inj (hx.symm.trans (e ▸ hj))
        simp [e, hself]
      · have hne : y ≠ x := by
          rintro rfl
          obtain ⟨hi, hix⟩ := List.getElem?_eq_some_iff.mp hx
          obtain ⟨hj', hjx⟩ := List.getElem?_eq_some_iff.mp hj
          exact e (((show items.Nodup from hp).getElem_inj_iff).mp (hix.trans hjx.symm))
        simp [e, hothers y (List.mem_of_getElem? hj) hne]
  · rename_i ms k
    obtain ⟨m, hm, rfl⟩ := hx
    obtain ⟨hmem, rfl⟩ := Member.find?_mem hm
    rw [toValue_object, toValue_object, Value.modifyChild, List.map_map]
    refine congrArg Value.object (List.map_congr_left fun n hn => ?_)
    have hiff := Member.key_eq_iff hk hp hmem hn
    by_cases e : n.value = m.value
    · simp [e, hiff.mpr e, hself]
    · have hne : n.key ≠ m.key := fun e' => e (hiff.mp e')
      simp [hne, hothers n.value (List.mem_map_of_mem hn) e]

end Content

/-- A tree reads as its content with each part read in its place. -/
theorem Tree.value_eq (t : Tree) : t.value = (t.content.map Tree.value).toValue := by
  obtain ⟨position, content⟩ := t
  cases content <;> simp [value, itemValues_eq, memberValues_eq, Content.map, Content.toValue]

end Reshape
