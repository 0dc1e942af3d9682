/-
  Reshape.Proofs.Transform.Repeating — the same transform twice.

  A transform without directives merges, and merging a second time finds what the first has left:
  each value that it states stands where it was put, and a value put in place once more is no
  change. Arrays are the exception, since their items go behind those that are there: a second time
  they stand there twice. So the transform is idempotent exactly if it states no items, in no object
  that its merging goes into. That is so for every document, whatever it had before.

  - `Value.StatesItems`: an array with items that is reached through objects alone.
  - `Value.member?_mergedMembers`: the merge, key by key; a key that was not there is merged into null.
  - `Value.deepMerge_again_iff`: by induction on what is merged.
  - `twice_as_once_iff`: of two applications of a transform the second changes nothing.
-/

import Reshape.Proofs.Json.RoundTrip
import Reshape.Proofs.Transform.DeepMerging

namespace Reshape

namespace Value

variable {key : String} {u v w : Value} {ms ts : List (String × Value)}

/-- The value is an array with items, or an object with such a value somewhere below it, objects all the way. -/
inductive StatesItems : Value → Prop
  | array {items : List Value} (h : items ≠ []) : StatesItems (.array items)
  | member {members : List (String × Value)} {key : String} {v : Value} (hm : (key, v) ∈ members)
      (h : StatesItems v) : StatesItems (.object members)

theorem not_statesItems_scalar (c : Scalar) : ¬ StatesItems (.scalar c) := nofun

theorem statesItems_array_iff {items : List Value} : StatesItems (.array items) ↔ items ≠ [] := by
  constructor
  · intro h
    cases h with
    | array h => exact h
  · exact .array

theorem statesItems_object_iff : StatesItems (.object ms) ↔ ∃ e ∈ ms, StatesItems e.2 := by
  constructor
  · intro h
    cases h with
    | member hm h => exact ⟨_, hm, h⟩
  · intro h
    obtain ⟨e, hm, h⟩ := h
    exact .member hm h

/-! ## Merging objects -/

def mergedMembers (ms ts : List (String × Value)) : List (String × Value) :=
  deepMembers ms ts ++ ts.filter fun t => (member? t.1 ms).isNone

theorem deepMerge_objects (ms ts : List (String × Value)) :
    deepMerge (.object ms) (.object ts) = .object (mergedMembers ms ts) := by
  simp only [deepMerge, mergedMembers]

/-- Whatever is no object gives way to one as an empty object would. -/
theorem deepMerge_onto (h : ∀ ms, u ≠ .object ms) (ts : List (String × Value)) :
    deepMerge u (.object ts) = deepMerge (.object []) (.object ts) := by
  have hempty : mergedMembers [] ts = ts := by simp [mergedMembers, deepMembers]
  rw [deepMerge_objects, hempty]
  cases u with
  | object ms => exact absurd rfl (h ms)
  | _ => simp [deepMerge]

/-- What a key held before the merge; a key that was not there held nothing but null. -/
def held (key : String) (ms : List (String × Value)) : Value := (member? key ms).getD (.scalar .null)

/-- Under each key that is merged stands what was held there with the value merged into it. -/
theorem member?_mergedMembers : member? key (mergedMembers ms ts) =
    match member? key ts with
    | some v => some (deepMerge (held key ms) v)
    | none => member? key ms := by
  rw [mergedMembers, member?_append, member?_deepMembers, member?_filter fun k => (member? k ms).isNone, held]
  cases hm : member? key ms with
  | none =>
    cases ht : member? key ts with
    | none => simp
    | some v => simp [deepMerge]
  | some old =>
    cases ht : member? key ts with
    | none => simp
    | some v => simp

/-- Once more merged, the members keep their keys. -/
theorem keys_mergedMembers_again (ms ts : List (String × Value)) :
    (mergedMembers (mergedMembers ms ts) ts).map Prod.fst = (mergedMembers ms ts).map Prod.fst := by
  have hnone : (ts.filter fun t => (member? t.1 (mergedMembers ms ts)).isNone) = [] := by
    refine List.filter_eq_nil_iff.mpr fun t ht => ?_
    have hmem : t.1 ∈ ts.map Prod.fst := List.mem_map_of_mem ht
    obtain ⟨v, hv⟩ := Option.ne_none_iff_exists'.mp fun e => member?_eq_none_iff.mp e hmem
    simp [member?_mergedMembers, hv]
  rw [mergedMembers, hnone, List.append_nil, keys_deepMembers]

/-! ## Merging twice -/

/-- Once more merged, the members are what they were exactly if each value is. -/
theorem mergedMembers_again_iff (hm : (ms.map Prod.fst).Nodup) (ht : (ts.map Prod.fst).Nodup) :
    mergedMembers (mergedMembers ms ts) ts = mergedMembers ms ts ↔
      ∀ key v, (key, v) ∈ ts → deepMerge (deepMerge (held key ms) v) v = deepMerge (held key ms) v := by
  have hagain : ∀ {key v}, member? key ts = some v →
      member? key (mergedMembers ms ts) = some (deepMerge (held key ms) v) ∧
        member? key (mergedMembers (mergedMembers ms ts) ts) =
          some (deepMerge (deepMerge (held key ms) v) v) := by
    intro key v hv
    have hone : member? key (mergedMembers ms ts) = some (deepMerge (held key ms) v) := by
      rw [member?_mergedMembers, hv]
    refine ⟨hone, ?_⟩
    rw [member?_mergedMembers, hv, held, hone]
    rfl
  constructor
  · intro h key v hv
    obtain ⟨hone, htwo⟩ := hagain (member?_of_mem ht hv)
    rw [h, hone] at htwo
    exact (Option.some.inj htwo).symm
  · intro h
    have hkeys := keys_mergedMembers_again ms ts
    refine members_ext hkeys (hkeys ▸ nodup_keys_merged hm ht) fun key => ?_
    cases hv : member? key ts with
    | none =>
      rw [member?_mergedMembers, hv]
    | some v =>
      obtain ⟨hone, htwo⟩ := hagain hv
      rw [hone, htwo, h key v (mem_of_member? hv)]

theorem held_keyed (hms : (Value.object ms).Keyed) (key : String) : (held key ms).Keyed := by
  rw [held]
  cases hk : member? key ms with
  | none => exact trivial
  | some old => exact membersKeyed_iff.mp hms.2 _ (mem_of_member? hk)

/-- Of what an object is merged into, only the members matter; anything else counts as an object without any. -/
theorem exists_deepMerge_eq (hu : u.Keyed) (ts : List (String × Value)) : ∃ ms, (Value.object ms).Keyed ∧
    deepMerge u (.object ts) = deepMerge (.object ms) (.object ts) := by
  by_cases h : ∃ ms, u = .object ms
  · obtain ⟨ms, rfl⟩ := h
    exact ⟨ms, hu, rfl⟩
  · exact ⟨[], ⟨List.nodup_nil, trivial⟩, deepMerge_onto (fun ms e => h ⟨ms, e⟩) ts⟩

/-- What holds of a value whenever it holds of its members' values holds of every value. -/
theorem members_induction {motive : Value → Prop}
    (step : ∀ v, (∀ members, v = .object members → ∀ e ∈ members, motive e.2) → motive v) (v : Value) : motive v :=
  step v fun members _ e _ => members_induction step e.2
termination_by sizeOf v
decreasing_by
  rename_i hv he
  obtain ⟨key, w⟩ := e
  have hlt := List.sizeOf_lt_of_mem he
  simp only [hv, Prod.mk.sizeOf_spec, object.sizeOf_spec] at hlt ⊢
  omega

/-- Merging the same twice is merging it once exactly if it states no items. -/
theorem deepMerge_again_iff (hv : v.Keyed) (hu : u.Keyed) :
    deepMerge (deepMerge u v) v = deepMerge u v ↔ ¬ StatesItems v := by
  induction v using members_induction generalizing u with | step v ih => ?_
  cases v with
  | scalar c =>
    have hscalar : ∀ u, deepMerge u (.scalar c) = .scalar c := by
      intro u
      cases u <;> simp [deepMerge]
    rw [hscalar, hscalar]
    exact iff_of_true rfl (not_statesItems_scalar c)
  | array ys =>
    obtain ⟨xs, hxs⟩ : ∃ xs, deepMerge u (.array ys) = .array (xs ++ ys) := by
      cases u with
      | array xs => exact ⟨xs, by simp [deepMerge]⟩
      | _ => exact ⟨[], by simp [deepMerge]⟩
    rw [hxs, statesItems_array_iff, not_not]
    simp [deepMerge]
  | object ts =>
    obtain ⟨ms, hms, hmerge⟩ := exists_deepMerge_eq hu ts
    rw [hmerge, deepMerge_objects, deepMerge_objects, Value.object.injEq, mergedMembers_again_iff hms.1 hv.1,
      statesItems_object_iff]
    constructor
    · intro h hstates
      obtain ⟨⟨key, w⟩, hw, hstates⟩ := hstates
      exact (ih ts rfl _ hw (membersKeyed_iff.mp hv.2 _ hw) (held_keyed hms key)).mp (h key w hw) hstates
    · intro h key w hw
      refine (ih ts rfl _ hw (membersKeyed_iff.mp hv.2 _ hw) (held_keyed hms key)).mpr fun hstates => ?_
      exact h ⟨(key, w), hw, hstates⟩

end Value

/-! ## The chain -/

variable {s : Session} {t : Tree}

/-- A transform without directives can be applied to a document twice. The second time it changes nothing exactly
    if it states no items: no array with items is reached from its root through objects alone. -/
theorem twice_as_once_iff (h : s.document.WellFormed) (ho : s.document.isObject s.document.root = true)
    (ht : t.Keyed) (hto : t.isObject = true) (hp : t.Plain) :
    ∃ s₁ s₂, (applyTransform t s.document.root).exec s = (.ok (), s₁) ∧
      (applyTransform t s₁.document.root).exec s₁ = (.ok (), s₂) ∧
      (s₂.document.rootValue = s₁.document.rootValue ↔ ¬ t.value.StatesItems) := by
  obtain ⟨s₁, hrun₁, hm₁⟩ := plain_merges ht hto hp h ho
  have hroot₁ : s₁.document.root = s.document.root := hm₁.framed.root_eq
  have ho₁ : s₁.document.isObject s₁.document.root = true := by
    rw [hroot₁, hm₁.framed.wellFormed.toLinked.value_isObject, hm₁.value, h.value_of_isObject ho,
      Tree.value_of_isObject hto, Value.deepMerge_objects]
    exact ⟨_, rfl⟩
  obtain ⟨s₂, hrun₂, hm₂⟩ := plain_merges ht hto hp hm₁.framed.wellFormed ho₁
  refine ⟨s₁, s₂, hrun₁, hrun₂, ?_⟩
  rw [Document.rootValue, Document.rootValue, hm₂.framed.root_eq, hm₂.value, hroot₁, hm₁.value]
  exact Value.deepMerge_again_iff ht.value (h.tree_keyed s.document.root).value

def listing (items : List Value) : Tree := .ofValue (.object [("a", .object [("l", .array items)])])

/-- Stated a second time, an empty array is no change, but an item is there twice. -/
theorem listing_twice :
    (∃ s₁ s₂, (applyTransform (listing []) named.root).exec ⟨named, []⟩ = (.ok (), s₁) ∧
      (applyTransform (listing []) s₁.document.root).exec s₁ = (.ok (), s₂) ∧
      s₂.document.rootValue = s₁.document.rootValue) ∧
    ∃ s₁ s₂, (applyTransform (listing [.ofNat 1]) named.root).exec ⟨named, []⟩ = (.ok (), s₁) ∧
      (applyTransform (listing [.ofNat 1]) s₁.document.root).exec s₁ = (.ok (), s₂) ∧
      s₂.document.rootValue ≠ s₁.document.rootValue := by
  have hkeyed : ∀ items, Value.ItemsKeyed items → (listing items).Keyed := fun items h =>
    Tree.keyed_ofValue _ (by simp [Value.Keyed, Value.MembersKeyed, h])
  have hplain : ∀ items, (listing items).Plain := fun items =>
    ⟨by decide +kernel, ⟨by decide +kernel, trivial, trivial⟩, trivial⟩
  have hstates : ∀ items, (listing items).value.StatesItems ↔ items ≠ [] := by
    intro items
    rw [listing, Tree.value_ofValue]
    simp [Value.statesItems_object_iff, Value.statesItems_array_iff]
  constructor
  · obtain ⟨s₁, s₂, hrun₁, hrun₂, hsame⟩ :=
      twice_as_once_iff (s := ⟨named, []⟩) named_wellFormed rfl (hkeyed [] trivial) rfl (hplain [])
    exact ⟨s₁, s₂, hrun₁, hrun₂, hsame.mpr fun h => (hstates []).mp h rfl⟩
  · obtain ⟨s₁, s₂, hrun₁, hrun₂, hsame⟩ :=
      twice_as_once_iff (s := ⟨named, []⟩) named_wellFormed rfl (hkeyed [.ofNat 1] ⟨trivial, trivial⟩) rfl (hplain [.ofNat 1])
    exact ⟨s₁, s₂, hrun₁, hrun₂, fun e => hsame.mp e ((hstates _).mpr (List.cons_ne_nil _ _))⟩

end Reshape
