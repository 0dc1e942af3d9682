/-
  Reshape.Proofs.Transform.Overtaking — when renaming by a path succeeds.

  The matches of a path are found once and renamed one after the other, all to one name. An
  object has a name only once, so a match that is given it takes the place of the property
  that has it already. If that property holds a match too, and its turn is still to come, it
  hangs nowhere when it does: it has been overtaken. So it is not enough for renaming to
  succeed that each match is the value of a property when it is found. None may be overtaken.

  - `Document.Named`, `Document.Overtaken`: both are told by the document as it was when the
    matches were found, and by the order of the matches.
  - `Renamed.perform`: what names nodes go by after one more match has been renamed.
  - `Renaming.path_renames_iff`: renaming by a path succeeds exactly if each match is the
    value of a property and none is overtaken; otherwise it is said that only values of named
    properties can be renamed.
  - `Renaming.named_matches_fail`: two properties of one object, the second overtaken.
-/

import Reshape.Proofs.Document.Contents
import Reshape.Proofs.Transform.Matches

namespace Reshape

namespace Document

variable {d d' : Document} {name key old : String} {object p q x y : NodeId} {done rest : List NodeId}

/-! ## The names of nodes -/

def Named (d : Document) (x : NodeId) : Prop := ∃ object key, d.get? object key = some x

theorem Linked.get?_iff (h : d.Linked) :
    d.get? object key = some x ↔ ∃ m ∈ d.members object, m.key = key ∧ m.value = x := by
  constructor
  · intro hg
    obtain ⟨m, hm, hv⟩ := get?_eq_some hg
    exact ⟨m, (Member.find?_mem hm).1, (Member.find?_mem hm).2, hv⟩
  · rintro ⟨m, hm, rfl, rfl⟩
    rw [get?, member?, Member.find?_of_mem (h.keys_nodup object) hm]
    rfl

theorem Linked.parent_of_get? (h : d.Linked) (hg : d.get? object key = some x) : d.parent x = some object :=
  h.parent_iff.mpr (mem_parts_of_get? hg)

/-- What is the value of a property can be given a name. -/
theorem WellFormed.rename (h : d.WellFormed) (hg : d.get? object key = some x) (name : String) :
    (d.perform (.rename x name)).WellFormed :=
  have hx : d.Holds x := holds_of_parent (h.parent_of_get? hg)
  h.perform (c := .rename x name) ⟨hx, List.forall_mem_nil _⟩

/-- A node is the value of one property. -/
theorem Linked.get?_inj (h : d.Linked) (hx : d.get? p key = some x) (hy : d.get? q old = some x) :
    p = q ∧ key = old := by
  obtain rfl : p = q := Option.some.inj ((h.parent_of_get? hx).symm.trans (h.parent_of_get? hy))
  obtain ⟨m, hm, rfl, rfl⟩ := h.get?_iff.mp hx
  obtain ⟨n, hn, rfl, hv⟩ := h.get?_iff.mp hy
  exact ⟨rfl, ((h.key_eq_iff (content_of_isObject (isObject_of_get? hx)) hm hn).mpr hv).symm⟩

/-- A node has the slot of a property exactly if it is the value of one. -/
theorem WellFormed.slot_eq_property_iff (h : d.WellFormed) :
    d.slot x = .property object key ↔ d.get? object key = some x := by
  constructor
  · intro hs
    exact (h.slot_listed (h.slot_property hs).1 hs).2.1
  · intro hg
    have hp := h.parent_of_get? hg
    cases hs : d.slot x with
    | none => exact absurd hs (h.slot_ne_none hp)
    | property q old =>
      obtain ⟨-, hg', -⟩ := h.slot_listed (h.slot_property hs).1 hs
      obtain ⟨rfl, rfl⟩ := h.get?_inj hg hg'
      rfl
    | element array index =>
      obtain ⟨hp', hc, -⟩ := slot_element hs
      obtain rfl := Option.some.inj (hp.symm.trans hp')
      rw [content_of_isObject (isObject_of_get? hg)] at hc
      cases hc

/-! ## One node renamed -/

/-- The members of an object one part of which has been given a name. -/
theorem mem_renamed {ms : List (Member NodeId)} {n : Member NodeId} :
    n ∈ ((Content.object ms).renamed y [name]).members ↔
      ∃ m ∈ ms, if m.value = y then { m with key := name } = n else m.key ≠ name ∧ m = n := by
  simp only [Content.renamed, Content.members, List.mem_map, List.mem_filter, and_assoc]
  refine exists_congr fun m => and_congr_right fun _ => ?_
  by_cases e : m.value = y
  · rw [if_pos e, if_pos e, beq_iff_eq.mpr e, Bool.true_or]
    exact and_iff_right rfl
  · rw [if_neg e, if_neg e, beq_false_of_ne e, Bool.false_or]
    simp

/-- In its object, what is given a name goes by it, and nothing else does. -/
theorem WellFormed.get?_rename_self (h : d.WellFormed) (hy : d.get? object old = some y) :
    (d.perform (.rename y name)).get? object key = some x ↔
      if x = y then key = name else d.get? object key = some x ∧ key ≠ name := by
  have hp := h.parent_of_get? hy
  have hwf := h.rename hy name
  have hmembers : (d.perform (.rename y name)).members object =
      ((Content.object (d.members object)).renamed y [name]).members := by
    rw [members, h.content_rename hp, if_pos rfl, content_of_isObject (isObject_of_get? hy)]
  rw [hwf.get?_iff, hmembers]
  split
  · rename_i e
    constructor
    · intro hn
      obtain ⟨n, hn, rfl, hv⟩ := hn
      obtain ⟨m, -, hm⟩ := mem_renamed.mp hn
      split at hm
      · exact hm ▸ rfl
      · rename_i hne
        exact absurd (hm.2 ▸ hv.trans e) hne
    · intro hk
      obtain ⟨m, hm, -, hv⟩ := h.get?_iff.mp hy
      exact ⟨{ m with key := name }, mem_renamed.mpr ⟨m, hm, by rw [if_pos hv]⟩, hk.symm, hv.trans e.symm⟩
  · rename_i hne
    rw [h.get?_iff]
    constructor
    · intro hn
      obtain ⟨n, hn, rfl, rfl⟩ := hn
      obtain ⟨m, hm, hmn⟩ := mem_renamed.mp hn
      split at hmn
      · rename_i hv
        exact absurd (hmn ▸ hv) hne
      · obtain ⟨hk, rfl⟩ := hmn
        exact ⟨⟨m, hm, rfl, rfl⟩, hk⟩
    · intro hand
      obtain ⟨⟨m, hm, rfl, rfl⟩, hk⟩ := hand
      exact ⟨m, mem_renamed.mpr ⟨m, hm, by rw [if_neg hne]; exact ⟨hk, rfl⟩⟩, rfl, rfl⟩

/-- What is given a name goes by it, and nothing else in its object does; other names are as they were. -/
theorem WellFormed.get?_rename (h : d.WellFormed) (hy : d.get? object old = some y) :
    (d.perform (.rename y name)).get? p key = some x ↔
      if x = y then p = object ∧ key = name else d.get? p key = some x ∧ ¬ (p = object ∧ key = name) := by
  by_cases e : p = object
  · subst e
    rw [h.get?_rename_self hy, and_iff_right rfl]
  · have hcontent := (h.content_rename (h.parent_of_get? hy) name p).trans (if_neg e)
    have hsame : (d.perform (.rename y name)).get? p key = d.get? p key := by
      rw [get?, get?, member?, member?, members_eq_of_content hcontent]
    rw [hsame]
    split
    · rename_i ex
      exact ⟨fun hg => absurd (h.get?_inj hg (ex ▸ hy)).1 e, fun hand => absurd hand.1 e⟩
    · exact ⟨fun hg => ⟨hg, fun hand => e hand.1⟩, fun hand => hand.1⟩

/-! ## Nodes renamed in a row -/

/-- Among the nodes `before`, one beside `x` is given the name that `x` goes by then: `x` had it from the start,
    or has been given it even before. -/
def Overtaken (d : Document) (name : String) (before : List NodeId) (x : NodeId) : Prop :=
  ∃ first y others, before = first ++ y :: others ∧ y ≠ x ∧ d.parent y = d.parent x ∧
    (x ∈ first ∨ ∃ object, d.get? object name = some x)

theorem not_overtaken_nil : ¬ d.Overtaken name [] x := by
  intro h
  obtain ⟨first, y, others, e, -⟩ := h
  exact absurd e.symm (List.append_ne_nil_of_right_ne_nil first (List.cons_ne_nil y others))

/-- Who is overtaken has been overtaken before, or is by the last. -/
theorem overtaken_concat : d.Overtaken name (done ++ [y]) x ↔ d.Overtaken name done x ∨
    (y ≠ x ∧ d.parent y = d.parent x ∧ (x ∈ done ∨ ∃ object, d.get? object name = some x)) := by
  constructor
  · intro h
    obtain ⟨first, z, others, e, hz⟩ := h
    rcases List.eq_nil_or_concat others with rfl | ⟨most, w, rfl⟩
    · obtain ⟨rfl, rfl⟩ := List.append_inj' e rfl |>.imp id List.singleton_inj.mp
      exact Or.inr hz
    · have e : done ++ [y] = (first ++ z :: most) ++ [w] := by simpa using e
      exact Or.inl ⟨first, z, most, (List.append_inj' e rfl).1, hz⟩
  · intro h
    rcases h with ⟨first, z, others, rfl, hz⟩ | hy
    · exact ⟨first, z, others ++ [y], by simp, hz⟩
    · exact ⟨done, y, [], rfl, hy⟩

/-- The key that a node goes by in its object, once the nodes `done` have been given a name: the name, if it is
    one of them, and otherwise its own. -/
def GoesBy (d : Document) (name : String) (done : List NodeId) (object : NodeId) (key : String) (x : NodeId) :
    Prop :=
  if x ∈ done then key = name ∧ ∃ old, d.get? object old = some x else d.get? object key = some x

theorem GoesBy.named (hg : d.GoesBy name done object key x) : ∃ old, d.get? object old = some x := by
  unfold GoesBy at hg
  split at hg
  · exact hg.2
  · exact ⟨key, hg⟩

/-- Who goes by the name in the object of a node that is given it is overtaken. -/
theorem GoesBy.overtaken_iff (hx : d.GoesBy name done p key x) (h : d.Linked) (hy : d.get? object old = some y) :
    (p = object ∧ key = name) ↔
      d.parent y = d.parent x ∧ (x ∈ done ∨ ∃ object, d.get? object name = some x) := by
  obtain ⟨own, hown⟩ := hx.named
  rw [h.parent_of_get? hy, h.parent_of_get? hown, Option.some.injEq, eq_comm (a := object)]
  refine and_congr_right fun _ => ?_
  unfold GoesBy at hx
  split at hx
  · rename_i hdone
    exact ⟨fun _ => Or.inl hdone, fun _ => hx.1⟩
  · rename_i hnot
    constructor
    · intro hk
      exact Or.inr ⟨p, hk ▸ hx⟩
    · intro hk
      obtain ⟨q, hq⟩ := hk.resolve_left hnot
      exact (h.get?_inj hx hq).2

/-- `d'` is `d` after the nodes `done`, values of properties, have been given a name. What has been overtaken
    goes by no name. -/
structure Renamed (d : Document) (name : String) (done : List NodeId) (d' : Document) : Prop where
  wellFormed : d'.WellFormed
  get?_iff : ∀ {object key x}, d'.get? object key = some x ↔
    ¬ d.Overtaken name done x ∧ d.GoesBy name done object key x

namespace Renamed

theorem refl (h : d.WellFormed) (name : String) : Renamed d name [] d where
  wellFormed := h
  get?_iff := by
    intro object key x
    rw [GoesBy, if_neg List.not_mem_nil]
    exact (and_iff_right not_overtaken_nil).symm

/-- What is the value of a property still was one, and has not been overtaken. -/
theorem named_iff (hr : Renamed d name done d') : d'.Named x ↔ d.Named x ∧ ¬ d.Overtaken name done x := by
  constructor
  · intro hx
    obtain ⟨object, key, hg⟩ := hx
    obtain ⟨hnot, hgoes⟩ := hr.get?_iff.mp hg
    exact ⟨⟨object, hgoes.named⟩, hnot⟩
  · intro hx
    obtain ⟨⟨object, old, hg⟩, hnot⟩ := hx
    by_cases hdone : x ∈ done
    · exact ⟨object, name, hr.get?_iff.mpr ⟨hnot, by rw [GoesBy, if_pos hdone]; exact ⟨rfl, old, hg⟩⟩⟩
    · exact ⟨object, old, hr.get?_iff.mpr ⟨hnot, by rw [GoesBy, if_neg hdone]; exact hg⟩⟩

/-- One more node is given the name. -/
theorem perform (hr : Renamed d name done d') (h : d.Linked) (hy : d'.get? object key = some y) :
    Renamed d name (done ++ [y]) (d'.perform (.rename y name)) := by
  obtain ⟨hnot, hgoes⟩ := hr.get?_iff.mp hy
  obtain ⟨old, hold⟩ := hgoes.named
  refine ⟨hr.wellFormed.rename hy name, fun {p k x} => ?_⟩
  rw [hr.wellFormed.get?_rename hy, overtaken_concat]
  -- The node itself goes by the name now. Another goes by what it did, unless that was the name in the same
  -- object, and then it has just been overtaken.
  by_cases e : x = y
  · subst e
    have hlast : x ∈ done ++ [x] := List.mem_append_right _ List.mem_cons_self
    rw [if_pos rfl, GoesBy, if_pos hlast]
    constructor
    · intro hk
      exact ⟨fun ho => ho.elim hnot fun hlater => hlater.1 rfl, hk.2, old, hk.1 ▸ hold⟩
    · intro hk
      obtain ⟨-, hk, own, hown⟩ := hk
      exact ⟨(h.get?_inj hown hold).1, hk⟩
  · have hsame : d.GoesBy name (done ++ [y]) p k x ↔ d.GoesBy name done p k x := by
      have hlast : x ∈ done ++ [y] ↔ x ∈ done := by
        rw [List.mem_append, List.mem_singleton, or_iff_left e]
      simp only [GoesBy, hlast]
    rw [if_neg e, hr.get?_iff, hsame, not_or, and_assoc, and_assoc]
    refine and_congr_right fun _ => ?_
    rw [and_comm]
    refine and_congr_left fun hx => not_congr ?_
    rw [hx.overtaken_iff h hold, and_iff_right (Ne.symm e)]

end Renamed

/-- After the nodes `done`, each of the nodes `rest` is the value of a property and has not been overtaken when its
    turn comes. -/
def Clear (d : Document) (name : String) (done rest : List NodeId) : Prop :=
  ∀ before x after, rest = before ++ x :: after → d.Named x ∧ ¬ d.Overtaken name (done ++ before) x

theorem clear_nil : d.Clear name done [] := by
  intro before x after e
  exact absurd e.symm (List.append_ne_nil_of_right_ne_nil before (List.cons_ne_nil x after))

theorem clear_cons : d.Clear name done (x :: rest) ↔
    (d.Named x ∧ ¬ d.Overtaken name done x) ∧ d.Clear name (done ++ [x]) rest := by
  constructor
  · intro h
    refine ⟨by simpa using h [] x rest rfl, fun before z after e => ?_⟩
    have hz := h (x :: before) z after (by rw [e]; rfl)
    rwa [List.append_cons] at hz
  · intro h before z after e
    obtain ⟨hx, hrest⟩ := h
    cases before with
    | nil =>
      obtain ⟨rfl, -⟩ := List.cons.inj e
      rwa [List.append_nil]
    | cons w before =>
      obtain ⟨rfl, hcut⟩ := List.cons.inj e
      rw [List.append_cons]
      exact hrest before z after hcut

theorem clear_iff : d.Clear name [] rest ↔ (∀ x ∈ rest, d.Named x) ∧
    ∀ before x after, rest = before ++ x :: after → ¬ d.Overtaken name before x := by
  constructor
  · intro h
    refine ⟨fun x hx => ?_, fun before x after e => (h before x after e).2⟩
    obtain ⟨before, after, e⟩ := List.append_of_mem hx
    exact (h before x after e).1
  · intro h before x after e
    exact ⟨h.1 x (e ▸ List.mem_append_right _ List.mem_cons_self), h.2 before x after e⟩

end Document

namespace Renaming

variable {s : Session} {d : Document} {node x : NodeId} {found done rest : List NodeId}
variable {operand : Tree} {target : Target} {name : String} {position : Option Position}

/-! ## The verb -/

theorem exec_renameNode_ok (h : s.document.WellFormed) (hx : s.document.Named x) :
    (renameNode x name position).exec s = (.ok (), s.changed (.rename x name)) := by
  obtain ⟨object, key, hg⟩ := hx
  rw [renameNode, Run.exec_bind_ok (Run.exec_document s), h.slot_eq_property_iff.mpr hg]
  rfl

theorem exec_renameNode_error (h : s.document.WellFormed) (hx : ¬ s.document.Named x) :
    (renameNode x name position).exec s = (.error (.inTransform .renamesUnnamed position), s) := by
  rw [renameNode, Run.exec_bind_ok (Run.exec_document s)]
  cases hs : s.document.slot x with
  | property object key => exact absurd ⟨object, key, h.slot_eq_property_iff.mp hs⟩ hx
  | _ => rfl

/-- The rest of the matches are renamed if each can be when its turn comes, and else it fails. -/
theorem exec_renameAll (h : d.Linked) (hr : d.Renamed name done s.document) (rest : List NodeId)
    (position : Option Position) :
    (d.Clear name done rest → ((renameAll name position rest).exec s).1 = .ok ()) ∧
      (¬ d.Clear name done rest →
        ((renameAll name position rest).exec s).1 = .error (.inTransform .renamesUnnamed position)) := by
  induction rest generalizing s done with
  | nil => exact ⟨fun _ => rfl, fun hc => absurd Document.clear_nil hc⟩
  | cons x rest ih =>
    rw [renameAll, Document.clear_cons]
    by_cases hx : s.document.Named x
    · obtain ⟨object, key, hg⟩ := hx
      rw [Run.exec_bind_ok (exec_renameNode_ok hr.wellFormed ⟨object, key, hg⟩),
        and_iff_right (hr.named_iff.mp ⟨object, key, hg⟩)]
      exact ih (s := s.changed (.rename x name)) (hr.perform h hg)
    · rw [Run.exec_bind_error (exec_renameNode_error hr.wellFormed hx)]
      exact ⟨fun hc => absurd (hr.named_iff.mpr hc.1) hx, fun _ => rfl⟩

/-- Renaming by a path comes to what renaming the matches comes to; that there are none is warned about. -/
theorem exec_act (ho : operand.isObject = true)
    (htarget : Target.ofOperand? .rename operand = .ok (some target)) (hname : target.value.string? = some name)
    (hfound : s.document.matches? node target.path = .ok found) :
    (act node operand).exec s = ((renameAll name operand.position found >>= fun _ => pure .proceed : Run Flow).exec
      (if found = [] then s.missed ⟨target.path, target.pathPosition⟩ else s)) := by
  rw [act, ho, Bool.not_true, if_neg Bool.false_ne_true, Run.exec_bind_ok (Run.exec_demand_ok htarget s)]
  simp only [hname]
  rw [Run.exec_bind_ok (Run.exec_find_ok hfound target.pathPosition)]
  cases found <;> rfl

/-- Renaming by a path proceeds exactly if each match is the value of a property when it is found, and none is
    overtaken by matches before it. Otherwise it fails, as it does for what has no name. -/
theorem path_renames_iff (h : s.document.WellFormed) (ho : operand.isObject = true)
    (htarget : Target.ofOperand? .rename operand = .ok (some target)) (hname : target.value.string? = some name)
    (hfound : s.document.matches? node target.path = .ok found) :
    (((act node operand).exec s).1 = .ok .proceed ↔ (∀ x ∈ found, s.document.Named x) ∧
      ∀ before x after, found = before ++ x :: after → ¬ s.document.Overtaken name before x) ∧
    (((act node operand).exec s).1 ≠ .ok .proceed →
      ((act node operand).exec s).1 = .error (.inTransform .renamesUnnamed operand.position)) := by
  rw [exec_act ho htarget hname hfound, ← Document.clear_iff]
  set start := if found = [] then s.missed ⟨target.path, target.pathPosition⟩ else s with hstart
  have hdocument : start.document = s.document := by
    rw [hstart]
    split <;> rfl
  have hrenamed : s.document.Renamed name [] start.document := hdocument ▸ .refl h name
  obtain ⟨hclear, hnot⟩ := exec_renameAll h.toLinked hrenamed found operand.position
  rw [Run.exec_bind]
  by_cases hc : s.document.Clear name [] found
  · have hok := hclear hc
    rcases hr : (renameAll name operand.position found).exec start with ⟨result, s'⟩
    rw [hr] at hok
    subst hok
    exact ⟨iff_of_true rfl hc, fun hne => absurd rfl hne⟩
  · have herror := hnot hc
    rcases hr : (renameAll name operand.position found).exec start with ⟨result, s'⟩
    rw [hr] at herror
    subst herror
    exact ⟨iff_of_false nofun hc, fun _ => rfl⟩

def siblings : Document := .ofValue (.object [("a", .ofNat 1), ("b", .ofNat 2)])

theorem siblings_wellFormed : siblings.WellFormed :=
  Document.ofValue_wellFormed (by simp [Value.Keyed, Value.MembersKeyed, Value.ofNat])

def toB (path : String) : Tree := .ofValue (.object [("@jdt.path", .ofString path), ("@jdt.value", .ofString "b")])

/-- One property may take the name of the other, as long as the other is not to be renamed behind it. -/
theorem toB_renames_first :
    ((act ⟨0⟩ (toB "$.a")).exec ⟨siblings, []⟩).1 = .ok .proceed ∧
      ((act ⟨0⟩ (toB "$.*")).exec ⟨siblings, []⟩).1 = .error (.inTransform .renamesUnnamed none) := by
  have hone : siblings.matches? ⟨0⟩ "$.a" = .ok [⟨1⟩] := by decide +kernel
  have hboth : siblings.matches? ⟨0⟩ "$.*" = .ok [⟨1⟩, ⟨2⟩] := by decide +kernel
  have hovertaken : siblings.Overtaken "b" [⟨1⟩] ⟨2⟩ :=
    ⟨[], ⟨1⟩, [], rfl, by decide, by decide, Or.inr ⟨⟨0⟩, rfl⟩⟩
  constructor
  · have hobject : (toB "$.a").isObject = true := rfl
    apply (path_renames_iff (s := ⟨siblings, []⟩) siblings_wellFormed hobject rfl rfl hone).1.mpr
    refine ⟨fun x hx => ?_, fun before x after e => ?_⟩
    · rw [List.mem_singleton.mp hx]
      exact ⟨⟨0⟩, "a", rfl⟩
    · obtain rfl : before = [] := by
        rcases List.append_eq_singleton_iff.mp e.symm with h | h
        · exact h.1
        · exact absurd h.2 (List.cons_ne_nil x after)
      exact Document.not_overtaken_nil
  · have hobject : (toB "$.*").isObject = true := rfl
    have hoverall := path_renames_iff (s := ⟨siblings, []⟩) siblings_wellFormed hobject rfl rfl hboth
    exact hoverall.2 fun hok => (hoverall.1.mp hok).2 [⟨1⟩] ⟨2⟩ [] rfl hovertaken

/-- Both matches are values of properties when they are found, and still renaming them fails. -/
theorem named_matches_fail :
    siblings.WellFormed ∧ siblings.isObject ⟨0⟩ = true ∧ siblings.matches? ⟨0⟩ "$.*" = .ok [⟨1⟩, ⟨2⟩] ∧
      (∀ x ∈ [(⟨1⟩ : NodeId), ⟨2⟩], siblings.Named x) ∧
      ((act ⟨0⟩ (toB "$.*")).exec ⟨siblings, []⟩).1 = .error (.inTransform .renamesUnnamed none) := by
  refine ⟨siblings_wellFormed, rfl, by decide +kernel, ?_, by decide +kernel⟩
  intro x hx
  rcases List.mem_pair.mp hx with rfl | rfl
  · exact ⟨⟨0⟩, "a", rfl⟩
  · exact ⟨⟨0⟩, "b", rfl⟩

end Renaming

end Reshape
