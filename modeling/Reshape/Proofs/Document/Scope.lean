/-
  Reshape.Proofs.Document.Scope — how far work on one node of a document can reach.

  Work on a node is given nodes under it, or nodes that it has stored itself (`Within`), and
  no node ever gets a new place: a node that was there before stays under its parent or
  hangs nowhere from then on (`Grown`). So what was out of reach stays out of reach, also
  when nodes are taken out under the work's hands.

  - `Confined d top d'`: `d'` has come from `d` by changes within reach of `top`; a further
    such change keeps this (`Confined.perform`), and what is within reach of a node within
    reach is within reach itself (`Confined.localize`).
  - `Confined.spares`: work on a node neither takes out nor overwrites a node that is apart
    from it, be it above, elsewhere, or the node above that the work was started from.
  - `matches?_cases`: a path finds the node that it starts from and nothing else, or nodes
    below it only.
-/

import Reshape.Proofs.Document.Changing
import Reshape.Transform.Operand

namespace Reshape

open Relation (ReflTransGen TransGen)

/-- A change takes the node from its parent, or overwrites it as a whole. -/
def Change.Unseats (d : Document) (c : Change) (node : NodeId) : Prop :=
  (∃ t, c = .overwrite node t) ∨ ∃ owner, d.parent node = some owner ∧ (d.perform c).parent node = none

namespace Document

/-! ## Growth -/

/-- `d'` has all nodes of `d`, each under its parent or without one. -/
structure Grown (d d' : Document) : Prop where
  size_le : d.nodes.size ≤ d'.nodes.size
  root_eq : d'.root = d.root
  parent_cases : ∀ {id}, d.Holds id → d'.parent id = d.parent id ∨ d'.parent id = none

namespace Grown

variable {d d' d'' : Document}

theorem refl (d : Document) : Grown d d := ⟨Nat.le_refl _, rfl, fun _ => Or.inl rfl⟩

theorem holds (h : Grown d d') {id : NodeId} (hh : d.Holds id) : d'.Holds id :=
  Nat.lt_of_lt_of_le hh h.size_le

theorem trans (h : Grown d d') (h' : Grown d' d'') : Grown d d'' := by
  refine ⟨h.size_le.trans h'.size_le, h'.root_eq.trans h.root_eq, fun {id} hh => ?_⟩
  rcases h'.parent_cases (h.holds hh) with e | e
  · rw [e]; exact h.parent_cases hh
  · exact Or.inr e

/-- A parent that is left is the one that was there. -/
theorem parent_eq (h : Grown d d') {id owner : NodeId} (hh : d.Holds id) (hp : d'.parent id = some owner) :
    d.parent id = some owner := by
  rcases h.parent_cases hh with e | e
  · exact e.symm.trans hp
  · rw [e] at hp; cases hp

/-- Nothing that was there gets under another node. -/
theorem under (h : Grown d d') (hd : d.Linked) {top id : NodeId} (hh : d.Holds id) (hu : d'.Under top id) :
    d.Under top id := by
  induction hu using ReflTransGen.head_induction_on with
  | refl => exact .refl
  | head hab _ ih =>
    have hp := h.parent_eq hh hab
    exact .head hp (ih (hd.holds_owner hp))

end Grown

theorem Edited.grown {d d' : Document} {site : NodeId} (h : Edited d d' site) : Grown d d' :=
  ⟨h.size_le, h.root_eq, fun hh => (h.parent_cases hh).imp_right And.right⟩

/-! ## Reach -/

/-- The node was stored after `d`, or lies under `top` there. -/
def Within (d : Document) (top id : NodeId) : Prop := ¬ d.Holds id ∨ d.Under top id

structure Local (d₀ : Document) (top : NodeId) (d : Document) (c : Change) : Prop where
  fits : c.Fits d
  within : d₀.Within top c.target

/-- `d'` has come from `d` by changes within reach of `top`. -/
structure Confined (d : Document) (top : NodeId) (d' : Document) : Prop extends Grown d d' where
  wellFormed : d'.WellFormed
  fresh_parent : ∀ {id owner}, ¬ d.Holds id → d'.parent id = some owner → d.Within top owner

namespace Confined

variable {d d' d'' : Document} {top c : NodeId}

theorem refl (h : d.WellFormed) (top : NodeId) : Confined d top d where
  toGrown := .refl d
  wellFormed := h
  fresh_parent hn hp := absurd (holds_of_parent hp) hn

/-- What lies under a node within reach is within reach. -/
theorem within_of_under (h : Confined d top d') (hd : d.Linked) (hc : d.Within top c) {id : NodeId}
    (hu : d'.Under c id) : d.Within top id := by
  induction hu using ReflTransGen.head_induction_on with
  | refl => exact hc
  | @head a b hab _ ih =>
    by_cases hh : d.Holds a
    · have hp := h.parent_eq hh hab
      rcases ih with hn | hu
      · exact absurd (hd.holds_owner hp) hn
      · exact Or.inr (.head hp hu)
    · exact Or.inl hh

/-- What is within reach of a node within reach is within reach. -/
theorem within_trans (h : Confined d top d') (hd : d.Linked) (hc : d.Within top c) {id : NodeId}
    (hw : d'.Within c id) : d.Within top id := by
  rcases hw with hn | hu
  · exact Or.inl fun hh => hn (h.holds hh)
  · exact h.within_of_under hd hc hu

/-- A change within reach of a node within reach is within reach. -/
theorem localize (h : Confined d top d') (hd : d.Linked) (hc : d.Within top c) {d₁ : Document} {ch : Change}
    (hl : Local d' c d₁ ch) : Local d top d₁ ch :=
  ⟨hl.fits, h.within_trans hd hc hl.within⟩

/-- A further change within reach. -/
theorem perform (h : Confined d top d') {ch : Change} (hl : Local d top d' ch) :
    Confined d top (d'.perform ch) := by
  have he := h.wellFormed.perform_edited hl.fits
  refine ⟨h.toGrown.trans he.grown, he.wellFormed, fun {id owner} hn hp => ?_⟩
  by_cases hh : d'.Holds id
  · exact h.fresh_parent hn (he.grown.parent_eq hh hp)
  · rcases h.wellFormed.perform_fresh hl.fits hh hp with ho | rfl
    · exact Or.inl fun hd => ho (h.holds hd)
    · exact hl.within

end Confined

/-! ## Out of reach -/

structure Apart (d : Document) (node c : NodeId) : Prop where
  not_under : ¬ d.Under c node
  parent_ne : ∀ {p}, d.parent c = some p → d.parent node ≠ some p

def Below (d : Document) (node id : NodeId) : Prop := ∃ part ∈ d.parts node, d.Under part id

variable {d d' : Document} {node c : NodeId}

theorem Below.under (h : d.Linked) (hb : d.Below node c) : d.Under node c := by
  obtain ⟨part, hp, hu⟩ := hb
  exact hu.tail (h.parent_iff.mpr hp)

theorem Below.holds (h : d.Linked) (hb : d.Below node c) : d.Holds c := by
  obtain ⟨part, hp, hu⟩ := hb
  exact holds_of_under (h.parts_held hp) hu

theorem below_of_get? (hg : ∃ key, d.get? node key = some c) : d.Below node c := by
  obtain ⟨key, hg⟩ := hg
  exact ⟨c, mem_parts_of_get? hg, .refl⟩

/-- A node is apart from what lies below it. -/
theorem Below.apart (h : d.Linked) (hb : d.Below node c) : d.Apart node c := by
  obtain ⟨part, hp, hu⟩ := hb
  refine ⟨fun hn => h.not_under_part hp (hn.trans hu), fun {p} hc hn => ?_⟩
  rcases ReflTransGen.cases_head hu with rfl | ⟨q, hcq, hq⟩
  · rw [h.parent_iff.mpr hp] at hc
    exact h.parent_ne_self node (hn.trans hc.symm)
  · obtain rfl : q = p := Option.some.inj (hcq.symm.trans hc)
    exact h.not_under_part hp (.head hn hq)

/-- What is apart stays apart. -/
theorem Apart.mono (ha : d.Apart node c) (hd : d.Linked) (hn : d.Holds node) (hc : d.Holds c)
    (h : Grown d d') : d'.Apart node c :=
  ⟨fun hu => ha.not_under (h.under hd hn hu), fun hp hq =>
    ha.parent_ne (h.parent_eq hc hp) (h.parent_eq hn hq)⟩

/-- The parent of a node that is apart is out of reach. -/
theorem Apart.not_within_parent (ha : d.Apart node c) (hd : d.Linked) {p : NodeId}
    (hp : d.parent node = some p) : ¬ d.Within c p := by
  rintro (hn | hu)
  · exact hn (hd.holds_owner hp)
  · exact ha.not_under (.head hp hu)

/-- Work on a node neither takes out nor overwrites a node that is apart from it. -/
theorem Confined.spares (h : Confined d c d') (hd : d.Linked) (ha : d.Apart node c) (hn : d.Holds node)
    {ch : Change} (hl : Local d c d' ch) : ¬ ch.Unseats d' node := by
  have out : ¬ d.Within c node := fun hw => hw.elim (fun hf => hf hn) ha.not_under
  rintro (⟨t, rfl⟩ | ⟨p, hp, hnone⟩)
  · exact out hl.within
  have hpd := h.parent_eq hn hp
  -- The parent that the node has lost is the site of the change.
  have hsite : ch.site d' = p := by
    rcases (h.wellFormed.perform_edited hl.fits).parent_cases (h.holds hn) with e | ⟨e, -⟩
    · rw [e, hp] at hnone; cases hnone
    · exact Option.some.inj (e.symm.trans hp)
  cases ch with
  | detach target =>
    rw [h.wellFormed.parent_detach] at hnone
    by_cases e : node = target
    · exact out (e ▸ hl.within)
    · rw [if_neg e, hp] at hnone; cases hnone
  | rename target name =>
    have hw : d.Within c target := hl.within
    have hsite : (d'.parent target).getD target = p := hsite
    cases ht : d'.parent target with
    | none =>
      rw [ht] at hsite
      exact ha.not_within_parent hd hpd (hsite ▸ hw)
    | some q =>
      rw [ht] at hsite
      obtain rfl : q = p := hsite
      by_cases hh : d.Holds target
      · have htd := h.parent_eq hh ht
        rcases ReflTransGen.cases_head (hw.resolve_left fun hf => hf hh) with rfl | ⟨r, hr, hu⟩
        · exact ha.parent_ne htd hpd
        · obtain rfl : r = q := Option.some.inj (hr.symm.trans htd)
          exact ha.not_within_parent hd hpd (Or.inr hu)
      · exact ha.not_within_parent hd hpd (h.fresh_parent hh ht)
  | _ => exact ha.not_within_parent hd hpd (hsite ▸ hl.within)

/-- A change to a node neither takes out nor overwrites a node that is apart from it. -/
theorem Apart.spared (ha : d.Apart node c) (h : d.WellFormed) (hn : d.Holds node) {ch : Change}
    (hf : ch.Fits d) (ht : ch.target = c) : ¬ ch.Unseats d node :=
  (Confined.refl h c).spares h.toLinked ha hn ⟨hf, ht ▸ Or.inr .refl⟩

/-- A node is taken out or overwritten by a change to itself only where the change says so. -/
theorem WellFormed.spares_self (h : d.WellFormed) {ch : Change} (hf : ch.Fits d) (ht : ch.target = node)
    (hd : ch ≠ .detach node) (ho : ∀ t, ch ≠ .overwrite node t) : ¬ ch.Unseats d node := by
  rintro (⟨t, e⟩ | ⟨p, hp, hnone⟩)
  · exact ho t e
  rcases (h.perform_edited hf).parent_cases (holds_of_parent hp) with e | ⟨e, -⟩
  · rw [e, hp] at hnone; cases hnone
  cases ch with
  | detach target => exact hd (congrArg Change.detach ht)
  | overwrite target t => exact ho t (congrArg (Change.overwrite · t) ht)
  | rename target name =>
    obtain rfl : target = node := ht
    rw [(h.parent_rename target name).1, hp] at hnone; cases hnone
  | _ => exact h.parent_ne_self node (e.trans (congrArg some ht))

/-! ## What is found from a node on -/

theorem tokenPart?_mem_parts {token : List Char} (ht : d.tokenPart? node token = some c) :
    c ∈ d.parts node := by
  unfold tokenPart? at ht
  split at ht
  · exact mem_parts_of_get? ht
  · rename_i items hitems
    obtain ⟨i, -, hi⟩ := Option.bind_eq_some_iff.mp ht
    rw [parts_of_array hitems]
    exact List.mem_of_getElem? hi
  · cases ht

theorem Linked.followTokens?_under (h : d.Linked) {tokens : List (List Char)}
    (hf : d.followTokens? node tokens = some c) : d.Under node c := by
  induction tokens generalizing node with
  | nil =>
    obtain rfl : node = c := Option.some.inj hf
    exact .refl
  | cons token rest ih =>
    obtain ⟨part, hp, hr⟩ := Option.bind_eq_some_iff.mp hf
    exact (ih hr).tail (h.parent_iff.mpr (tokenPart?_mem_parts hp))

theorem Linked.resolve?_below (h : d.Linked) {location : Location} (hl : location ≠ [])
    (hr : d.resolve? node location.pointer = some c) : d.Below node c := by
  cases location with
  | nil => exact absurd rfl hl
  | cons s rest =>
    simp only [resolve?, Location.pointer, List.flatMap_cons, List.cons_append, pointerTokens?,
      Option.bind_some] at hr
    cases hp : pieces (s.token ++ List.flatMap (fun s => '/' :: s.token) rest) with
    | nil => exact absurd hp (pieces_ne_nil _)
    | cons piece more =>
      rw [hp] at hr
      obtain ⟨part, hpart, hf⟩ := Option.bind_eq_some_iff.mp hr
      exact ⟨part, tokenPart?_mem_parts hpart, h.followTokens?_under hf⟩

open Reshape.Path in
/-- Every find of a segment is below a find before it. -/
theorem segment_location_ne_nil {root : Value} {finds : List Find} {s : Segment} {f : Find}
    (hf : f ∈ s.apply root finds) : f.location ≠ [] := by
  cases s with
  | mk descends selectors =>
    simp only [Segment.apply, List.mem_flatMap, List.mem_map] at hf
    obtain ⟨-, -, g, -, p, -, rfl⟩ := hf
    simp

open Reshape.Path in
theorem applyAll_location_ne_nil (root : Value) {finds : List Find} (hfinds : ∀ f ∈ finds, f.location ≠ [])
    (segments : List Segment) : ∀ f ∈ applyAll root finds segments, f.location ≠ [] := by
  induction segments generalizing finds with
  | nil => exact hfinds
  | cons s rest ih =>
    rw [applyAll]
    exact ih fun f hf => segment_location_ne_nil hf

/-- A path finds the node that it starts from and nothing else, or nodes below it only. -/
theorem Linked.matches?_cases (h : d.Linked) {path : String} {found : List NodeId}
    (hm : d.matches? node path = .ok found) : found = [node] ∨ ∀ x ∈ found, d.Below node x := by
  unfold matches? query at hm
  cases hq : Path.Query.read (Path.normalize path.toList) with
  | error e => rw [hq] at hm; cases hm
  | ok q =>
    rw [hq] at hm
    obtain rfl := Except.ok.inj hm
    cases q with
    | nil => exact Or.inl rfl
    | cons s rest =>
      refine Or.inr fun x hx => ?_
      obtain ⟨location, hl, hr⟩ := List.mem_filterMap.mp hx
      obtain ⟨f, hf, rfl⟩ := List.mem_map.mp hl
      have hne := applyAll_location_ne_nil (d.value node) (fun f hf => segment_location_ne_nil hf) rest f hf
      exact h.resolve?_below hne hr

end Document

end Reshape
