/-
  Reshape.Proofs.Json.DeepMerge — merging one value into another, all the way down.

  `Value.deepMerge` is what a transform without directives should come to: members of the
  source keep their places, objects on both sides are merged member by member, an array
  takes the items of another behind its own, anything else gives way to the transform's
  value, and members that the source lacks follow at its end, in the transform's order.

  - `Value.enter` brings in one literal member alone; of two objects it leaves the one that
    is there (`Value.absorb`). `Value.Keeps` says that the value is not lost by that.
  - Members are compared by what is found under each key, and by the order of their keys
    (`Value.members_ext`).
-/

import Reshape.Json.Value

namespace Reshape.Value

variable {key other : String} {v w : Value} {es ts : List (String × Value)}

/-! ## Members by key -/

@[simp] theorem member?_nil (key : String) : member? key [] = none := rfl

theorem member?_cons (e : String × Value) (rest : List (String × Value)) :
    member? key (e :: rest) = if e.1 = key then some e.2 else member? key rest := rfl

theorem member?_eq_none_iff : member? key es = none ↔ key ∉ es.map Prod.fst := by
  induction es with
  | nil => simp
  | cons e rest ih =>
    rw [member?_cons]
    by_cases h : e.1 = key
    · simp [h]
    · simp [h, Ne.symm h, ih]

theorem mem_of_member? (h : member? key es = some v) : (key, v) ∈ es := by
  induction es with
  | nil => cases h
  | cons e rest ih =>
    obtain ⟨k, w⟩ := e
    rw [member?_cons] at h
    split at h
    · rename_i hk
      obtain rfl : k = key := hk
      obtain rfl := Option.some.inj h
      exact List.mem_cons_self
    · exact List.mem_cons_of_mem _ (ih h)

theorem member?_of_mem (hn : (es.map Prod.fst).Nodup) (h : (key, v) ∈ es) : member? key es = some v := by
  induction es with
  | nil => cases h
  | cons e rest ih =>
    rw [List.map_cons, List.nodup_cons] at hn
    rw [member?_cons]
    rcases List.mem_cons.mp h with rfl | h
    · simp
    · have hmem : key ∈ rest.map Prod.fst := List.mem_map_of_mem (f := Prod.fst) h
      have hne : e.1 ≠ key := fun e' => hn.1 (e' ▸ hmem)
      rw [if_neg hne]
      exact ih hn.2 h

theorem member?_append : member? key (es ++ ts) = (member? key es).or (member? key ts) := by
  induction es with
  | nil => simp
  | cons e rest ih =>
    rw [List.cons_append, member?_cons, member?_cons, ih]
    split <;> simp

theorem member?_filter (p : String → Bool) :
    member? key (es.filter fun e => p e.1) = if p key then member? key es else none := by
  induction es with
  | nil => simp
  | cons e rest ih =>
    rw [List.filter_cons]
    by_cases hk : e.1 = key
    · subst hk
      by_cases hp : p e.1
      · simp [hp, member?_cons]
      · simp only [hp, Bool.false_eq_true, if_false] at ih ⊢
        exact ih
    · by_cases hp : p e.1
      · simp [hp, member?_cons, hk, ih]
      · simp [hp, member?_cons, hk, ih]

/-- Members are the same if they have the same keys in the same order, and the same value under each. -/
theorem members_ext (hkeys : es.map Prod.fst = ts.map Prod.fst) (hn : (es.map Prod.fst).Nodup)
    (h : ∀ key, member? key es = member? key ts) : es = ts := by
  induction es generalizing ts with
  | nil => exact (List.map_eq_nil_iff.mp hkeys.symm).symm
  | cons e rest ih =>
    cases ts with
    | nil => cases hkeys
    | cons t rest' =>
      obtain ⟨hk, hkeys⟩ := List.cons.inj hkeys
      rw [List.map_cons, List.nodup_cons] at hn
      have hv : e.2 = t.2 := by simpa [member?_cons, hk] using h t.1
      have hrest : rest = rest' := by
        refine ih hkeys hn.2 fun key => ?_
        by_cases e' : e.1 = key
        · rw [member?_eq_none_iff.mpr (e' ▸ hn.1), member?_eq_none_iff.mpr (hkeys ▸ e' ▸ hn.1)]
        · simpa [member?_cons, e', hk ▸ e'] using h key
      rw [hrest, Prod.ext hk hv]

/-! ## Changing one member -/

def update (key : String) (v : Value) (es : List (String × Value)) : List (String × Value) :=
  es.map fun e => if e.1 = key then (key, v) else e

@[simp] theorem keys_update : (update key v es).map Prod.fst = es.map Prod.fst := by
  rw [update, List.map_map]
  refine List.map_congr_left fun e _ => ?_
  by_cases h : e.1 = key <;> simp [h]

theorem member?_update : member? other (update key v es) =
    if other = key then (member? key es).map fun _ => v else member? other es := by
  induction es with
  | nil => simp [update]
  | cons e rest ih =>
    rw [update, List.map_cons, ← update, member?_cons, ih, member?_cons, member?_cons]
    by_cases ho : other = key
    · subst ho
      by_cases he : e.1 = other <;> simp [he]
    · by_cases he : e.1 = key
      · subst he
        simp [ho, Ne.symm ho]
      · simp [he, ho]

/-- What becomes of a value that a literal member is brought together with. -/
def absorb : Value → Value → Value
  | .array xs, .array ys => .array (xs ++ ys)
  | .object ms, .object _ => .object ms
  | _, v => v

/-- The members with a literal member brought in: into the value that is there, or at the end. -/
def enter (es : List (String × Value)) (e : String × Value) : List (String × Value) :=
  match member? e.1 es with
  | some old => update e.1 (absorb old e.2) es
  | none => es ++ [e]

theorem member?_enter_self :
    member? key (enter es (key, v)) = some (((member? key es).map (absorb · v)).getD v) := by
  unfold enter
  cases h : member? key es with
  | none => simp [h, member?_append, member?_cons]
  | some old => simp [h, member?_update]

theorem member?_enter_of_ne (h : other ≠ key) : member? other (enter es (key, v)) = member? other es := by
  unfold enter
  cases hk : member? key es with
  | none => simp [member?_append, member?_cons, Ne.symm h]
  | some old => simp [member?_update, h]

theorem keys_enter : (enter es (key, v)).map Prod.fst =
    if key ∈ es.map Prod.fst then es.map Prod.fst else es.map Prod.fst ++ [key] := by
  unfold enter
  cases h : member? key es with
  | none => rw [if_neg (member?_eq_none_iff.mp h)]; simp
  | some old =>
    have hmem : key ∈ es.map Prod.fst := List.mem_map_of_mem (mem_of_member? h)
    rw [if_pos hmem, keys_update]

/-- Of members that are brought in one after the other, each under its own key, each meets what was there at
    first. -/
theorem member?_foldl_enter (key : String) (es : List (String × Value)) (hn : (ts.map Prod.fst).Nodup) :
    member? key (ts.foldl enter es) =
      match member? key ts with
      | some v => some (((member? key es).map (absorb · v)).getD v)
      | none => member? key es := by
  induction ts generalizing es with
  | nil => simp
  | cons t rest ih =>
    obtain ⟨k, v⟩ := t
    rw [List.map_cons, List.nodup_cons] at hn
    rw [List.foldl_cons, ih (enter es (k, v)) hn.2, member?_cons]
    by_cases hk : k = key
    · subst hk
      rw [member?_eq_none_iff.mpr hn.1]
      simp [member?_enter_self]
    · simp only [hk, if_false, member?_enter_of_ne (Ne.symm hk)]

theorem keys_foldl_enter (hn : (ts.map Prod.fst).Nodup) :
    (ts.foldl enter es).map Prod.fst =
      es.map Prod.fst ++ (ts.filter fun t => (member? t.1 es).isNone).map Prod.fst := by
  induction ts generalizing es with
  | nil => simp
  | cons t rest ih =>
    obtain ⟨k, v⟩ := t
    rw [List.map_cons, List.nodup_cons] at hn
    have hsame : (rest.filter fun t => (member? t.1 (enter es (k, v))).isNone) =
        rest.filter fun t => (member? t.1 es).isNone := by
      refine List.filter_congr fun t ht => ?_
      have hmem : t.1 ∈ rest.map Prod.fst := List.mem_map_of_mem ht
      have hne : t.1 ≠ k := fun e => hn.1 (e ▸ hmem)
      rw [member?_enter_of_ne hne]
    rw [List.foldl_cons, ih hn.2, hsame, keys_enter, List.filter_cons]
    cases hm : member? k es with
    | none => simp [member?_eq_none_iff.mp hm]
    | some old =>
      have hmem : k ∈ es.map Prod.fst := List.mem_map_of_mem (mem_of_member? hm)
      simp only [if_pos hmem, Option.isNone_some, Bool.false_eq_true, if_false]

/-! ## What is kept -/

/-- The value is there, or an array ends with its items. -/
def Keeps (held : Option Value) (v : Value) : Prop :=
  held = some v ∨ ∃ before items, v = .array items ∧ held = some (.array (before ++ items))

def BothObjects (old v : Value) : Prop := (∃ ms, old = .object ms) ∧ ∃ ms, v = .object ms

theorem absorb_of_bothObjects {old : Value} (h : BothObjects old v) : absorb old v = old := by
  obtain ⟨⟨ms, rfl⟩, ns, rfl⟩ := h
  rfl

/-- Unless both are objects, a value that is absorbed is kept. -/
theorem keeps_absorb {old : Value} (h : ¬ BothObjects old v) : Keeps (some (absorb old v)) v := by
  cases old with
  | scalar s => exact Or.inl rfl
  | array xs =>
    cases v with
    | array ys => exact Or.inr ⟨xs, ys, rfl, rfl⟩
    | _ => exact Or.inl rfl
  | object ms =>
    cases v with
    | object ns => exact absurd ⟨⟨ms, rfl⟩, ns, rfl⟩ h
    | _ => exact Or.inl rfl

/-! ## Merging all the way down -/

mutual

def deepMerge : Value → Value → Value
  | .object ms, v =>
    match v with
    | .object ts => .object (deepMembers ms ts ++ ts.filter fun t => (member? t.1 ms).isNone)
    | _ => v
  | .array xs, v =>
    match v with
    | .array ys => .array (xs ++ ys)
    | _ => v
  | .scalar _, v => v
termination_by structural v => v

def deepMembers : List (String × Value) → List (String × Value) → List (String × Value)
  | [], _ => []
  | (key, v) :: rest, ts =>
    (key, match member? key ts with
      | some w => deepMerge v w
      | none => v) :: deepMembers rest ts
termination_by structural ms => ms

end

theorem deepMerge_of_not_bothObjects {old : Value} (h : ¬ BothObjects old v) :
    deepMerge old v = absorb old v := by
  cases old with
  | scalar s => simp [deepMerge, absorb]
  | array xs => cases v <;> simp [deepMerge, absorb]
  | object ms =>
    cases v with
    | object ns => exact absurd ⟨⟨ms, rfl⟩, ns, rfl⟩ h
    | _ => simp [deepMerge, absorb]

theorem keys_deepMembers : (deepMembers es ts).map Prod.fst = es.map Prod.fst := by
  induction es with
  | nil => rfl
  | cons e rest ih => simp [deepMembers, ih]

theorem member?_deepMembers : member? key (deepMembers es ts) =
    (member? key es).map fun v => match member? key ts with
      | some w => deepMerge v w
      | none => v := by
  induction es with
  | nil => rfl
  | cons e rest ih =>
    obtain ⟨k, v⟩ := e
    rw [deepMembers, member?_cons, member?_cons, ih]
    by_cases h : k = key
    · subst h; simp
    · simp [h]

/-- Members that are there and members that are new have different keys. -/
theorem nodup_keys_merged (hes : (es.map Prod.fst).Nodup) (hts : (ts.map Prod.fst).Nodup) :
    ((deepMembers es ts ++ ts.filter fun t => (member? t.1 es).isNone).map Prod.fst).Nodup := by
  rw [List.map_append, keys_deepMembers, List.nodup_append]
  refine ⟨hes, hts.sublist (List.filter_sublist.map Prod.fst), fun a ha b hb e => ?_⟩
  obtain ⟨t, ht, rfl⟩ := List.mem_map.mp hb
  have hnone := (List.mem_filter.mp ht).2
  exact member?_eq_none_iff.mp (Option.isNone_iff_eq_none.mp hnone) (e ▸ ha)

/-- Merging in two rounds: members that the first round is done with have been merged all the way down, and the
    others are brought in by the second, which meets no two objects. -/
theorem foldl_enter_eq_deepMembers {es₁ : List (String × Value)} {done : List String}
    (hes : (es.map Prod.fst).Nodup) (hts : (ts.map Prod.fst).Nodup)
    (hkeys : es₁.map Prod.fst = es.map Prod.fst)
    (hrest : ∀ key ∉ done, member? key es₁ = member? key es)
    (hdone : ∀ key ∈ done, ∃ old v, member? key es = some old ∧ member? key ts = some v ∧
      member? key es₁ = some (deepMerge old v))
    (hleft : ∀ key ∉ done, ∀ old v, member? key es = some old → member? key ts = some v →
      ¬ BothObjects old v) :
    (ts.filter fun t => !done.contains t.1).foldl enter es₁ =
      deepMembers es ts ++ ts.filter fun t => (member? t.1 es).isNone := by
  have hsub : ((ts.filter fun t => !done.contains t.1).map Prod.fst).Nodup :=
    hts.sublist (List.filter_sublist.map Prod.fst)
  -- The same keys are new in both rounds as in one.
  have hnew : ((ts.filter fun t => !done.contains t.1).filter fun t => (member? t.1 es₁).isNone) =
      ts.filter fun t => (member? t.1 es).isNone := by
    rw [List.filter_filter]
    refine List.filter_congr fun t _ => ?_
    by_cases hd : t.1 ∈ done
    · obtain ⟨old, -, ho, -⟩ := hdone t.1 hd
      simp [hd, ho]
    · simp [hd, hrest t.1 hd]
  have hkeysEq : ((ts.filter fun t => !done.contains t.1).foldl enter es₁).map Prod.fst =
      (deepMembers es ts ++ ts.filter fun t => (member? t.1 es).isNone).map Prod.fst := by
    rw [keys_foldl_enter hsub, hnew, hkeys, List.map_append, keys_deepMembers]
  refine members_ext hkeysEq ?_ fun key => ?_
  · rw [hkeysEq]
    exact nodup_keys_merged hes hts
  · rw [member?_foldl_enter key es₁ hsub, member?_filter fun k => !done.contains k, member?_append,
      member?_deepMembers,
      member?_filter fun k => (member? k es).isNone]
    by_cases hd : key ∈ done
    · obtain ⟨old, v, ho, hv, h₁⟩ := hdone key hd
      simp [hd, ho, hv, h₁]
    · simp only [hrest key hd, List.contains_eq_mem, hd, decide_false, Bool.not_false, if_true]
      cases ho : member? key es with
      | none => cases hv : member? key ts <;> simp
      | some old =>
        cases hv : member? key ts with
        | none => simp
        | some v => simp [deepMerge_of_not_bothObjects (hleft key hd old v ho hv)]

end Reshape.Value
