/-
  Reshape.Proofs.Json.Keyed — members by key, and trees in which keys are unique.

  A list of members is changed at the first member of a key. Where the list has the key,
  it splits there, and `put`, `erase` and `rekey` change that member and nothing else; where
  it does not, only `put` does anything, at the end.

  - A tree is keyed if no object of it has two members of one key. Merging the members of
    one key makes it so (`distinct_keyed`).
  - `Tree.parts_induction`: what holds of a tree whenever it holds of its parts holds of
    every tree.
-/

import Reshape.Json.Tree

namespace Reshape

/-! ## Members by key -/

namespace Member

variable {α : Type} {key : String} {ms before after : List (Member α)} {m : Member α}

theorem find?_eq_none_iff : find? key ms = none ↔ key ∉ ms.map Member.key := by
  induction ms with
  | nil => simp [find?]
  | cons m rest ih =>
    simp only [find?, List.map_cons, List.mem_cons, not_or]
    by_cases e : m.key = key
    · simp [e]
    · simp [e, ih, Ne.symm e]

/-- A list that has a key splits at the first member of the key. -/
theorem find?_split (h : find? key ms = some m) :
    ∃ before after, ms = before ++ m :: after ∧ m.key = key ∧ key ∉ before.map Member.key := by
  induction ms with
  | nil => simp [find?] at h
  | cons n rest ih =>
    simp only [find?] at h
    split at h
    · obtain rfl : n = m := by simpa using h
      exact ⟨[], rest, rfl, ‹_›, by simp⟩
    · obtain ⟨before, after, rfl, hk, hb⟩ := ih h
      refine ⟨n :: before, after, rfl, hk, ?_⟩
      simp only [List.map_cons, List.mem_cons, not_or]
      exact ⟨Ne.symm ‹_›, hb⟩

theorem find?_mem (h : find? key ms = some m) : m ∈ ms ∧ m.key = key := by
  obtain ⟨before, after, rfl, hk, -⟩ := find?_split h
  exact ⟨by simp, hk⟩

theorem find?_append (hb : key ∉ before.map Member.key) : find? key (before ++ ms) = find? key ms := by
  induction before with
  | nil => rfl
  | cons n rest ih =>
    simp only [List.map_cons, List.mem_cons, not_or] at hb
    simp [find?, Ne.symm hb.1, ih hb.2]

/-- Where keys are unique, a member is found by its key. -/
theorem find?_of_mem (hn : (ms.map Member.key).Nodup) (h : m ∈ ms) : find? m.key ms = some m := by
  obtain ⟨before, after, rfl⟩ := List.append_of_mem h
  simp only [List.map_append, List.map_cons, List.nodup_append] at hn
  rw [find?_append fun hb => hn.2.2 _ hb _ List.mem_cons_self rfl]
  simp [find?]

theorem put_of_absent {position : Option Position} {v : α} (h : key ∉ ms.map Member.key) :
    put key position v ms = ms ++ [⟨key, position, v⟩] := by
  induction ms with
  | nil => rfl
  | cons n rest ih =>
    simp only [List.map_cons, List.mem_cons, not_or] at h
    simp [put, Ne.symm h.1, ih h.2]

theorem put_split {position : Option Position} {v : α} (hb : m.key ∉ before.map Member.key) :
    put m.key position v (before ++ m :: after) = before ++ { m with value := v } :: after := by
  induction before with
  | nil => simp [put]
  | cons n rest ih =>
    simp only [List.map_cons, List.mem_cons, not_or] at hb
    simp [put, Ne.symm hb.1, ih hb.2]

theorem erase_split (hb : m.key ∉ before.map Member.key) :
    erase m.key (before ++ m :: after) = before ++ after := by
  induction before with
  | nil => simp [erase]
  | cons n rest ih =>
    simp only [List.map_cons, List.mem_cons, not_or] at hb
    simp [erase, Ne.symm hb.1, ih hb.2]

theorem erase_sublist (key : String) (ms : List (Member α)) : (erase key ms).Sublist ms := by
  induction ms with
  | nil => exact .slnil
  | cons n rest ih =>
    simp only [erase]
    split
    · exact List.sublist_cons_self _ _
    · exact ih.cons_cons _

theorem erase_eq_filter (h : (ms.map Member.key).Nodup) :
    erase key ms = ms.filter fun m => m.key != key := by
  induction ms with
  | nil => rfl
  | cons m rest ih =>
    rw [List.map_cons, List.nodup_cons] at h
    rw [erase, List.filter_cons]
    by_cases e : m.key = key
    · have hall : ∀ n ∈ rest, (n.key != key) = true := fun n hn => by
        simpa using fun e' : n.key = key => h.1 (e.trans e'.symm ▸ List.mem_map_of_mem hn)
      simp [e, List.filter_eq_self.mpr hall]
    · simp [e, ih h.2]

theorem rekey_of_absent {new : String} (h : key ∉ ms.map Member.key) : rekey key new ms = ms := by
  induction ms with
  | nil => rfl
  | cons n rest ih =>
    simp only [List.map_cons, List.mem_cons, not_or] at h
    simp [rekey, Ne.symm h.1, ih h.2]

theorem rekey_split {new : String} (hb : m.key ∉ before.map Member.key) :
    rekey m.key new (before ++ m :: after) = before ++ { m with key := new } :: after := by
  induction before with
  | nil => simp [rekey]
  | cons n rest ih =>
    simp only [List.map_cons, List.mem_cons, not_or] at hb
    simp [rekey, Ne.symm hb.1, ih hb.2]

theorem keys_put {position : Option Position} {v : α} :
    (put key position v ms).map Member.key =
      if key ∈ ms.map Member.key then ms.map Member.key else ms.map Member.key ++ [key] := by
  split
  · rename_i h
    cases hf : find? key ms with
    | none => exact absurd h (find?_eq_none_iff.mp hf)
    | some m =>
      obtain ⟨before, after, rfl, rfl, hb⟩ := find?_split hf
      simp [put_split hb]
  · rename_i h
    simp [put_of_absent h]

theorem nodup_keys_put {position : Option Position} {v : α} (h : (ms.map Member.key).Nodup) :
    ((put key position v ms).map Member.key).Nodup := by
  rw [keys_put]
  split
  · exact h
  · rw [List.nodup_append]
    refine ⟨h, by simp, fun a ha b hb e => ?_⟩
    obtain rfl : b = key := by simpa using hb
    exact absurd (e ▸ ha) ‹_›

/-- Putting something in the place of a member exchanges just that member's value. -/
theorem values_put_present {position : Option Position} {v : α} (hf : find? key ms = some m)
    (hn : (ms.map value).Nodup) (hv : v ∉ ms.map value) : ((put key position v ms).map value).Nodup ∧
      ∀ x, x ∈ (put key position v ms).map value ↔ x = v ∨ (x ≠ m.value ∧ x ∈ ms.map value) := by
  obtain ⟨before, after, rfl, rfl, hb⟩ := find?_split hf
  simp only [put_split hb, List.map_append, List.map_cons, List.nodup_append, List.nodup_cons, List.mem_append,
    List.mem_cons, not_or] at hn hv ⊢
  obtain ⟨hbefore, ⟨hm, hafter⟩, hdiff⟩ := hn
  refine ⟨⟨hbefore, ⟨hv.2.2, hafter⟩, ?_⟩, fun x => ⟨?_, ?_⟩⟩
  · rintro a ha b (rfl | hb) rfl
    · exact hv.1 ha
    · exact hdiff a ha a (Or.inr hb) rfl
  · rintro (hx | hx | hx)
    · exact Or.inr ⟨fun e => hdiff x hx _ (Or.inl rfl) e, Or.inl hx⟩
    · exact Or.inl hx
    · exact Or.inr ⟨fun e => hm (e ▸ hx), Or.inr (Or.inr hx)⟩
  · rintro (hx | ⟨hne, hx | hx | hx⟩)
    · exact Or.inr (Or.inl hx)
    · exact Or.inl hx
    · exact absurd hx hne
    · exact Or.inr (Or.inr hx)

/-- Erasing a member takes out just its value. -/
theorem mem_values_erase (hf : find? key ms = some m) (hn : (ms.map value).Nodup) (x : α) :
    x ∈ (erase key ms).map value ↔ x ≠ m.value ∧ x ∈ ms.map value := by
  obtain ⟨before, after, rfl, rfl, hb⟩ := find?_split hf
  simp only [erase_split hb, List.map_append, List.map_cons, List.nodup_append, List.nodup_cons, List.mem_append,
    List.mem_cons] at hn ⊢
  obtain ⟨-, ⟨hm, -⟩, hdiff⟩ := hn
  constructor
  · rintro (hx | hx)
    · exact ⟨fun e => hdiff x hx _ (Or.inl rfl) e, Or.inl hx⟩
    · exact ⟨fun e => hm (e ▸ hx), Or.inr (Or.inr hx)⟩
  · rintro ⟨hne, hx | hx | hx⟩
    · exact Or.inl hx
    · exact absurd hx hne
    · exact Or.inr hx

theorem values_rekey (old new : String) (ms : List (Member α)) :
    (rekey old new ms).map value = ms.map value := by
  induction ms with
  | nil => rfl
  | cons m rest ih =>
    simp only [rekey]
    split
    · rfl
    · simp [ih]

/-- Another key for a member leaves keys unique if no member has it. -/
theorem nodup_keys_rekey {old new : String} (hn : (ms.map Member.key).Nodup)
    (hnew : new ∉ ms.map Member.key) : ((rekey old new ms).map Member.key).Nodup := by
  cases hf : find? old ms with
  | none => rw [rekey_of_absent (find?_eq_none_iff.mp hf)]; exact hn
  | some m =>
    obtain ⟨before, after, rfl, rfl, hb⟩ := find?_split hf
    simp only [rekey_split hb, List.map_append, List.map_cons, List.nodup_append, List.nodup_cons, List.mem_append,
      List.mem_cons, not_or] at hn hnew ⊢
    obtain ⟨hbefore, ⟨-, hafter⟩, hdiff⟩ := hn
    refine ⟨hbefore, ⟨hnew.2.2, hafter⟩, ?_⟩
    rintro a ha b (rfl | hb) rfl
    · exact hnew.1 ha
    · exact hdiff a ha a (Or.inr hb) rfl

theorem map_put {β : Type} (f : α → β) (position : Option Position) (v : α) (ms : List (Member α)) :
    (put key position v ms).map (fun m => ⟨m.key, m.position, f m.value⟩) =
      put key position (f v) (ms.map fun m => ⟨m.key, m.position, f m.value⟩) := by
  induction ms with
  | nil => rfl
  | cons n rest ih => by_cases e : n.key = key <;> simp [put, e, ih]

/-- What a list holds after `put` it held before, or was put there. -/
theorem mem_put {position : Option Position} {v : α} {n : Member α} (h : n ∈ put key position v ms) :
    n.value = v ∨ n ∈ ms := by
  induction ms with
  | nil =>
    obtain rfl : n = ⟨key, position, v⟩ := by simpa [put] using h
    exact Or.inl rfl
  | cons o rest ih =>
    simp only [put] at h
    split at h
    · rcases List.mem_cons.mp h with rfl | h
      · exact Or.inl rfl
      · exact Or.inr (List.mem_cons_of_mem _ h)
    · rcases List.mem_cons.mp h with rfl | h
      · exact Or.inr List.mem_cons_self
      · exact (ih h).imp_right (List.mem_cons_of_mem _)

end Member

/-! ## Trees and their parts -/

namespace Tree

theorem height_le_itemsHeight {t : Tree} {items : List Tree} (h : t ∈ items) :
    t.height ≤ itemsHeight items := by
  induction items with
  | nil => cases h
  | cons u rest ih =>
    simp only [itemsHeight]
    rcases List.mem_cons.mp h with rfl | h
    · omega
    · have := ih h; omega

theorem height_le_membersHeight {m : Member Tree} {members : List (Member Tree)} (h : m ∈ members) :
    m.value.height ≤ membersHeight members := by
  induction members with
  | nil => cases h
  | cons n rest ih =>
    simp only [membersHeight]
    rcases List.mem_cons.mp h with rfl | h
    · omega
    · have := ih h; omega

/-- A part is less high than the whole. -/
theorem height_lt_of_mem_parts {part t : Tree} (h : part ∈ t.content.parts) : part.height < t.height := by
  obtain ⟨position, content⟩ := t
  cases content with
  | scalar s => cases h
  | array items =>
    have : part.height ≤ itemsHeight items := height_le_itemsHeight h
    simp only [height]; omega
  | object members =>
    obtain ⟨m, hm, rfl⟩ := List.mem_map.mp h
    have := height_le_membersHeight hm
    simp only [height]; omega

/-- What holds of a tree whenever it holds of the tree's parts holds of every tree. -/
theorem parts_induction {motive : Tree → Prop}
    (step : ∀ t, (∀ part ∈ t.content.parts, motive part) → motive t) (t : Tree) : motive t :=
  step t fun part _ => parts_induction step part
termination_by t.height
decreasing_by exact height_lt_of_mem_parts ‹_›

theorem mem_parts_of_mem_members {t : Tree} {m : Member Tree} (h : m ∈ t.members) :
    m.value ∈ t.content.parts := by
  obtain ⟨position, content⟩ := t
  cases content with
  | object members => exact List.mem_map_of_mem h
  | _ => cases h

theorem mem_parts_of_mem_items {t item : Tree} (h : item ∈ t.items) : item ∈ t.content.parts := by
  obtain ⟨position, content⟩ := t
  cases content with
  | array items => exact h
  | _ => cases h

theorem itemValues_eq (items : List Tree) : itemValues items = items.map value := by
  induction items with
  | nil => simp [itemValues]
  | cons t rest ih => simp [itemValues, ih]

theorem memberValues_eq (members : List (Member Tree)) :
    memberValues members = members.map fun m => (m.key, m.value.value) := by
  induction members with
  | nil => simp [memberValues]
  | cons m rest ih => simp [memberValues, ih]

/-! ## Unique keys -/

mutual

/-- No object of the tree has two members of one key. -/
def Keyed : Tree → Prop
  | ⟨_, .scalar _⟩ => True
  | ⟨_, .array items⟩ => ItemsKeyed items
  | ⟨_, .object members⟩ => (members.map Member.key).Nodup ∧ MembersKeyed members
termination_by structural t => t

def ItemsKeyed : List Tree → Prop
  | [] => True
  | t :: rest => t.Keyed ∧ ItemsKeyed rest
termination_by structural items => items

def MembersKeyed : List (Member Tree) → Prop
  | [] => True
  | ⟨_, _, t⟩ :: rest => t.Keyed ∧ MembersKeyed rest
termination_by structural members => members

end

theorem itemsKeyed_iff {items : List Tree} : ItemsKeyed items ↔ ∀ t ∈ items, t.Keyed := by
  induction items with
  | nil => simp [ItemsKeyed]
  | cons t rest ih => simp [ItemsKeyed, ih]

theorem membersKeyed_iff {members : List (Member Tree)} :
    MembersKeyed members ↔ ∀ m ∈ members, m.value.Keyed := by
  induction members with
  | nil => simp [MembersKeyed]
  | cons m rest ih => simp [MembersKeyed, ih]

/-- A tree is keyed if its own keys are unique and its parts are keyed. -/
theorem keyed_iff {t : Tree} :
    t.Keyed ↔ (t.members.map Member.key).Nodup ∧ ∀ part ∈ t.content.parts, part.Keyed := by
  obtain ⟨position, content⟩ := t
  cases content with
  | scalar s => simp [Keyed, members, Content.members, Content.parts]
  | array items => simp [Keyed, members, Content.members, Content.parts, itemsKeyed_iff]
  | object members => simp [Keyed, Tree.members, Content.members, Content.parts, membersKeyed_iff]

theorem Keyed.keys {t : Tree} (h : t.Keyed) : (t.members.map Member.key).Nodup := (keyed_iff.mp h).1

theorem Keyed.part {t part : Tree} (h : t.Keyed) (hp : part ∈ t.content.parts) : part.Keyed :=
  (keyed_iff.mp h).2 part hp

theorem Keyed.member {t : Tree} (h : t.Keyed) {m : Member Tree} (hm : m ∈ t.members) : m.value.Keyed :=
  h.part (mem_parts_of_mem_members hm)

theorem Keyed.item {t item : Tree} (h : t.Keyed) (hi : item ∈ t.items) : item.Keyed :=
  h.part (mem_parts_of_mem_items hi)

mutual

/-- Merging the members of one key leaves a tree with unique keys. -/
theorem distinct_keyed (t : Tree) : t.distinct.Keyed := by
  match t with
  | ⟨_, .scalar s⟩ => simp [distinct, Keyed]
  | ⟨_, .array items⟩ => simpa [distinct, Keyed] using distinctItems_keyed items
  | ⟨_, .object members⟩ =>
    simpa [distinct, Keyed] using distinctMembers_keyed [] members (by simp) (by simp [MembersKeyed])

theorem distinctItems_keyed (items : List Tree) : ItemsKeyed (distinctItems items) := by
  match items with
  | [] => simp [distinctItems, ItemsKeyed]
  | t :: rest => exact ⟨distinct_keyed t, distinctItems_keyed rest⟩

theorem distinctMembers_keyed (seen members : List (Member Tree)) (hk : (seen.map Member.key).Nodup)
    (hs : MembersKeyed seen) :
    ((distinctMembers seen members).map Member.key).Nodup ∧
      MembersKeyed (distinctMembers seen members) := by
  match members with
  | [] => exact ⟨hk, hs⟩
  | ⟨key, position, t⟩ :: rest =>
    refine distinctMembers_keyed (Member.put key position t.distinct seen) rest (Member.nodup_keys_put hk) ?_
    rw [membersKeyed_iff] at hs ⊢
    intro m hm
    rcases Member.mem_put hm with e | hm
    · rw [e]; exact distinct_keyed t
    · exact hs m hm

end

theorem without_sublist (t : Tree) (keys : List String) : (t.without keys).members.Sublist t.members := by
  obtain ⟨position, content⟩ := t
  cases content with
  | object members =>
    show (keys.foldl (fun ms key => Member.erase key ms) members).Sublist members
    induction keys generalizing members with
    | nil => exact List.Sublist.refl _
    | cons key rest ih => exact (ih _).trans (Member.erase_sublist _ _)
  | _ => exact List.Sublist.refl _

@[simp] theorem without_nil (t : Tree) : t.without [] = t := by
  obtain ⟨position, content⟩ := t
  cases content <;> rfl

/-- Of members of unique keys, those of the given keys go. -/
theorem Keyed.members_without {t : Tree} (h : t.Keyed) (keys : List String) :
    (t.without keys).members = t.members.filter fun m => !keys.contains m.key := by
  obtain ⟨position, content⟩ := t
  cases content with
  | object members =>
    show keys.foldl (fun ms key => Member.erase key ms) members = members.filter fun m => !keys.contains m.key
    have hn : (members.map Member.key).Nodup := h.keys
    clear h
    induction keys generalizing members with
    | nil => exact (List.filter_eq_self.mpr fun _ _ => rfl).symm
    | cons key rest ih =>
      have hrest := hn.sublist ((Member.erase_sublist key members).map Member.key)
      rw [List.foldl_cons, ih _ hrest, Member.erase_eq_filter hn, List.filter_filter]
      refine List.filter_congr fun m _ => ?_
      by_cases e : m.key = key <;> simp [e]
  | _ => rfl

/-- Fewer members are still members of unique keys. -/
theorem Keyed.without {t : Tree} (h : t.Keyed) (keys : List String) : (t.without keys).Keyed := by
  have hs := without_sublist t keys
  refine keyed_iff.mpr ⟨h.keys.sublist (hs.map _), fun part hp => ?_⟩
  obtain ⟨position, content⟩ := t
  cases content with
  | object members =>
    obtain ⟨m, hm, rfl⟩ := List.mem_map.mp hp
    exact h.member (hs.subset hm)
  | _ => exact h.part hp

end Tree

/-! ## Values with unique keys -/

namespace Value

mutual

def Keyed : Value → Prop
  | .scalar _ => True
  | .array items => ItemsKeyed items
  | .object members => (members.map Prod.fst).Nodup ∧ MembersKeyed members
termination_by structural v => v

def ItemsKeyed : List Value → Prop
  | [] => True
  | v :: rest => v.Keyed ∧ ItemsKeyed rest
termination_by structural items => items

def MembersKeyed : List (String × Value) → Prop
  | [] => True
  | (_, v) :: rest => v.Keyed ∧ MembersKeyed rest
termination_by structural members => members

end

end Value

namespace Tree

theorem keys_ofMembers (members : List (String × Value)) :
    (ofMembers members).map Member.key = members.map Prod.fst := by
  induction members with
  | nil => rfl
  | cons m rest ih => simp [ofMembers, ih]

mutual

theorem keyed_ofValue (v : Value) (h : v.Keyed) : (ofValue v).Keyed := by
  match v with
  | .scalar s => simp [ofValue, Keyed]
  | .array items => simpa [ofValue, Keyed] using itemsKeyed_ofItems items (by simpa [Value.Keyed] using h)
  | .object members =>
    obtain ⟨hk, hm⟩ : (members.map Prod.fst).Nodup ∧ Value.MembersKeyed members := by
      simpa [Value.Keyed] using h
    simpa [ofValue, Keyed, keys_ofMembers] using ⟨hk, membersKeyed_ofMembers members hm⟩

theorem itemsKeyed_ofItems (items : List Value) (h : Value.ItemsKeyed items) :
    ItemsKeyed (ofItems items) := by
  match items with
  | [] => simp [ofItems, ItemsKeyed]
  | v :: rest =>
    obtain ⟨hv, hr⟩ : v.Keyed ∧ Value.ItemsKeyed rest := by simpa [Value.ItemsKeyed] using h
    exact ⟨keyed_ofValue v hv, itemsKeyed_ofItems rest hr⟩

theorem membersKeyed_ofMembers (members : List (String × Value)) (h : Value.MembersKeyed members) :
    MembersKeyed (ofMembers members) := by
  match members with
  | [] => simp [ofMembers, MembersKeyed]
  | (_, v) :: rest =>
    obtain ⟨hv, hr⟩ : v.Keyed ∧ Value.MembersKeyed rest := by simpa [Value.MembersKeyed] using h
    exact ⟨keyed_ofValue v hv, membersKeyed_ofMembers rest hr⟩

end

end Tree

end Reshape
