/-
  Reshape.Proofs.Path.Finds — what a query finds in a value stands there, where it was found.

  A find is handed from segment to segment with its location, and each segment adds the step to
  the child that it picks. In a value whose objects have each key once, the step is all that is
  needed to tell a child: so the location of a find always leads to the value of the find.

  - `Find.StandsIn v f`: the location of the find leads to its value in `v`.
  - `Selector.pick_child?`: what a selector picks are children, each with the step to it.
  - `Segment.apply_standsIn` is the step that a segment takes, `Query.select_standsIn` the whole.
-/

import Reshape.Path.Select
import Reshape.Proofs.Json.DeepMerge
import Reshape.Proofs.Json.RoundTrip

namespace Reshape

namespace Value

variable {v w : Value} {s : Step} {l : Location}

theorem at?_append (v : Value) (l more : Location) : v.at? (l ++ more) = (v.at? l).bind fun w => w.at? more := by
  induction l generalizing v with
  | nil => rfl
  | cons s rest ih =>
    rw [List.cons_append, at?, at?]
    cases v.child? s with
    | none => rfl
    | some w => exact ih w

/-- The parts of a value with unique keys have unique keys. -/
theorem Keyed.child (h : v.Keyed) (hc : v.child? s = some w) : w.Keyed := by
  cases v with
  | scalar c => cases s <;> cases hc
  | array items =>
    cases s with
    | key k => cases hc
    | index i => exact itemsKeyed_iff.mp h w (List.mem_of_getElem? hc)
  | object members =>
    cases s with
    | key k => exact membersKeyed_iff.mp h.2 (k, w) (mem_of_member? hc)
    | index i => cases hc

theorem Keyed.at (h : v.Keyed) (hl : v.at? l = some w) : w.Keyed := by
  induction l generalizing v with
  | nil =>
    obtain rfl := Option.some.inj hl
    exact h
  | cons s rest ih =>
    obtain ⟨u, hu, hrest⟩ := Option.bind_eq_some_iff.mp hl
    exact ih (h.child hu) hrest

end Value

namespace Path

variable {root v w : Value} {s : Step} {l : Location} {f : Find}

/-! ## Children -/

theorem mem_itemSteps {start : Nat} {items : List Value} (h : (s, w) ∈ itemSteps start items) :
    ∃ i, s = .index (start + i) ∧ items[i]? = some w := by
  induction items generalizing start with
  | nil => cases h
  | cons u rest ih =>
    rcases List.mem_cons.mp h with e | h
    · obtain ⟨rfl, rfl⟩ := Prod.mk.inj e
      exact ⟨0, rfl, rfl⟩
    · obtain ⟨i, rfl, hi⟩ := ih h
      exact ⟨i + 1, by rw [Nat.add_assoc, Nat.add_comm 1 i], hi⟩

/-- A child is where the step beside it leads. -/
theorem children_child? (hv : v.Keyed) (h : (s, w) ∈ children v) : v.child? s = some w := by
  cases v with
  | scalar c => cases h
  | array items =>
    obtain ⟨i, rfl, hi⟩ := mem_itemSteps h
    rw [Nat.zero_add]
    exact hi
  | object members =>
    obtain ⟨m, hm, e⟩ := List.mem_map.mp h
    obtain ⟨rfl, rfl⟩ := Prod.mk.inj e
    exact Value.member?_of_mem hv.1 hm

theorem mem_child {t : Step} (h : (s, w) ∈ ((v.child? t).map fun u => (t, u)).toList) : v.child? s = some w := by
  obtain ⟨u, hu, e⟩ := Option.map_eq_some_iff.mp (Option.mem_toList.mp h)
  obtain ⟨rfl, rfl⟩ := Prod.mk.inj e
  exact hu

/-- What a selector picks are children, each with the step to it. -/
theorem Selector.pick_child? (hv : v.Keyed) {selector : Selector} (h : (s, w) ∈ selector.pick root v) :
    v.child? s = some w := by
  cases selector with
  | name key => exact mem_child h
  | wildcard => exact children_child? hv h
  | index i =>
    cases v with
    | array items =>
      rw [Selector.pick] at h
      split at h
      · exact mem_child h
      · cases h
    | _ => cases h
  | slice start stop step =>
    cases v with
    | array items =>
      rw [Selector.pick] at h
      obtain ⟨i, -, hi⟩ := List.mem_flatMap.mp h
      exact mem_child hi
    | _ => cases h
  | filter test => exact children_child? hv (List.mem_filter.mp h).1

theorem pickAll_child? (hv : v.Keyed) {selectors : List Selector} (h : (s, w) ∈ pickAll root v selectors) :
    v.child? s = some w := by
  induction selectors with
  | nil => cases h
  | cons selector rest ih =>
    rcases List.mem_append.mp h with h | h
    · exact Selector.pick_child? hv h
    · exact ih h

/-! ## Descendants -/

mutual

/-- What is found below a location of a value is where the rest of its own location leads. -/
theorem descendants_at? (v : Value) (hv : v.Keyed) (l : Location) (h : f ∈ descendants l v) :
    ∃ more, f.location = l ++ more ∧ v.at? more = some f.value := by
  match v with
  | .scalar c =>
    obtain rfl := List.mem_singleton.mp h
    exact ⟨[], (List.append_nil l).symm, rfl⟩
  | .array items =>
    rcases List.mem_cons.mp h with rfl | h
    · exact ⟨[], (List.append_nil l).symm, rfl⟩
    · obtain ⟨i, w, more, hi, hloc, hw⟩ := itemDescendants_at? items hv l 0 h
      rw [Nat.zero_add] at hloc
      exact ⟨.index i :: more, hloc, by rw [Value.at?, Value.child?, hi]; exact hw⟩
  | .object members =>
    rcases List.mem_cons.mp h with rfl | h
    · exact ⟨[], (List.append_nil l).symm, rfl⟩
    · obtain ⟨key, w, more, hm, hloc, hw⟩ := memberDescendants_at? members hv.2 l h
      have hchild : (Value.object members).child? (.key key) = some w := Value.member?_of_mem hv.1 hm
      exact ⟨.key key :: more, hloc, by rw [Value.at?, hchild]; exact hw⟩

theorem itemDescendants_at? (items : List Value) (hv : Value.ItemsKeyed items) (l : Location) (index : Nat)
    (h : f ∈ itemDescendants l index items) :
    ∃ i w more, items[i]? = some w ∧ f.location = l ++ .index (index + i) :: more ∧ w.at? more = some f.value := by
  match items with
  | [] => cases h
  | v :: rest =>
    rcases List.mem_append.mp h with h | h
    · obtain ⟨more, hloc, hw⟩ := descendants_at? v hv.1 (l ++ [.index index]) h
      exact ⟨0, v, more, rfl, by rw [hloc]; simp, hw⟩
    · obtain ⟨i, w, more, hi, hloc, hw⟩ := itemDescendants_at? rest hv.2 l (index + 1) h
      exact ⟨i + 1, w, more, hi, by rw [hloc, Nat.add_assoc, Nat.add_comm 1 i], hw⟩

theorem memberDescendants_at? (members : List (String × Value)) (hv : Value.MembersKeyed members) (l : Location)
    (h : f ∈ memberDescendants l members) :
    ∃ key w more, (key, w) ∈ members ∧ f.location = l ++ .key key :: more ∧ w.at? more = some f.value := by
  match members with
  | [] => cases h
  | (key, v) :: rest =>
    rcases List.mem_append.mp h with h | h
    · obtain ⟨more, hloc, hw⟩ := descendants_at? v hv.1 (l ++ [.key key]) h
      exact ⟨key, v, more, List.mem_cons_self, by rw [hloc]; simp, hw⟩
    · obtain ⟨k, w, more, hm, hloc, hw⟩ := memberDescendants_at? rest hv.2 l h
      exact ⟨k, w, more, List.mem_cons_of_mem _ hm, hloc, hw⟩

end

/-! ## Finds -/

def Find.StandsIn (v : Value) (f : Find) : Prop := v.at? f.location = some f.value

/-- What is found from a find on stands where the find does. -/
theorem Find.StandsIn.descendant {g : Find} (hv : v.Keyed) (hf : f.StandsIn v)
    (hg : g ∈ descendants f.location f.value) : g.StandsIn v := by
  obtain ⟨more, hloc, hw⟩ := descendants_at? f.value (hv.at hf) f.location hg
  rw [Find.StandsIn, hloc, Value.at?_append, hf]
  exact hw

theorem Find.StandsIn.pick {selectors : List Selector} (hv : v.Keyed) (hf : f.StandsIn v)
    (h : (s, w) ∈ pickAll root f.value selectors) : Find.StandsIn v ⟨f.location ++ [s], w⟩ := by
  rw [Find.StandsIn, Value.at?_append, hf]
  show ((f.value).at? [s]) = some w
  rw [Value.at?, pickAll_child? (hv.at hf) h]
  rfl

/-- What a segment finds in finds that stand in a value stands there too. -/
theorem Segment.apply_standsIn (hv : v.Keyed) {finds : List Find} (hfinds : ∀ f ∈ finds, f.StandsIn v)
    (segment : Segment) : ∀ f ∈ segment.apply root finds, f.StandsIn v := by
  intro f hf
  cases segment with
  | mk descends selectors =>
    obtain ⟨g, hg, hf⟩ := List.mem_flatMap.mp hf
    obtain ⟨g', hg', hf⟩ := List.mem_flatMap.mp hf
    obtain ⟨⟨s, w⟩, hp, rfl⟩ := List.mem_map.mp hf
    have hstands : g'.StandsIn v := by
      cases descends with
      | true => exact (hfinds g hg).descendant hv hg'
      | false =>
        obtain rfl := List.mem_singleton.mp hg'
        exact hfinds g' hg
    exact hstands.pick hv hp

theorem applyAll_standsIn (hv : v.Keyed) {finds : List Find} (hfinds : ∀ f ∈ finds, f.StandsIn v)
    (segments : List Segment) : ∀ f ∈ applyAll root finds segments, f.StandsIn v := by
  induction segments generalizing finds with
  | nil => exact hfinds
  | cons segment rest ih =>
    rw [applyAll]
    exact ih (Segment.apply_standsIn hv hfinds segment)

/-- What a query finds in a value stands there. -/
theorem Query.select_standsIn (hv : v.Keyed) (q : Query) : ∀ f ∈ q.select v, f.StandsIn v :=
  applyAll_standsIn hv (fun f hf => by obtain rfl := List.mem_singleton.mp hf; rfl) q

end Path

end Reshape
