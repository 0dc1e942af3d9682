/-
  Reshape.Proofs.Transform.Pruning — removal by a path takes all matches out at once.

  The matches of a path are taken out one after the other. An item that leaves its array
  moves those behind it, a match may lie below one that has been taken out before, and may be
  found twice. None of this matters, since matches are held by node and not by location: each
  node keeps its parts but for the matches among them, whatever the order in which these have
  left (`detachAll_pruned`). So the object reads as it did, without the parts at the matched
  locations.

  - `Removal.exec_removeAll`: where the object itself is not found, nothing fails or halts.
  - `Removal.act_prunes`: removal by a path, from its operand on.
-/

import Reshape.Proofs.Transform.Matches

namespace Reshape

namespace Content

variable {c : Content NodeId} {x : NodeId}

theorem omitting_of_not_mem (h : x ∉ c.parts) : c.omitting x = c := by
  cases c with
  | scalar s => rfl
  | array items =>
    refine congrArg Content.array (List.filter_eq_self.mpr fun y hy => ?_)
    exact bne_iff_ne.mpr fun e => h (e ▸ hy)
  | object ms =>
    refine congrArg Content.object (List.filter_eq_self.mpr fun m hm => ?_)
    exact bne_iff_ne.mpr fun e => h (e ▸ List.mem_map_of_mem hm)

end Content

namespace Document

variable {d d' : Document} {node x : NodeId} {gone found : List NodeId}

/-! ## Nodes taken out in a row -/

/-- A node that is taken out is left out wherever it was a part. -/
theorem WellFormed.content_omitting (h : d.WellFormed) (x y : NodeId) :
    (d.perform (.detach x)).content y = (d.content y).omitting x := by
  have hpart : ∀ {z}, d.parent x ≠ some z → (d.content z).omitting x = d.content z := fun hp =>
    Content.omitting_of_not_mem fun hm => hp (h.parent_iff.mpr hm)
  cases hp : d.parent x with
  | none =>
    have hstays : d.perform (.detach x) = d := by
      rw [Document.perform, detach?, slot, hp]
      rfl
    have hfree : d.parent x ≠ some y := by
      rw [hp]
      exact (Option.some_ne_none y).symm
    rw [hstays, hpart hfree]
  | some owner =>
    rw [h.content_detach hp]
    split
    · rename_i e
      rw [e]
    · rename_i hne
      rw [hpart fun e => hne (Option.some.inj (hp.symm.trans e)).symm]

/-- `d'` is `d` without the nodes `gone`, each of which has left the node that it was a part of. -/
structure Pruned (d : Document) (gone : List NodeId) (d' : Document) : Prop extends Grown d d' where
  wellFormed : d'.WellFormed
  content : ∀ y, d'.content y = (d.content y).filterMap fun x => if x ∈ gone then none else some x
  position : ∀ y, d'.position y = d.position y

theorem Pruned.refl (h : d.WellFormed) : Pruned d [] d where
  toGrown := .refl d
  wellFormed := h
  content _ := (Content.filterMap_eq_self fun _ _ => if_neg List.not_mem_nil).symm
  position _ := rfl

/-- Nodes that are taken out after another one. -/
theorem Pruned.cons (h : d.WellFormed) (hx : d.Holds x) (hp : Pruned (d.perform (.detach x)) gone d') :
    Pruned d (x :: gone) d' where
  toGrown := (h.perform_edited (c := .detach x) ⟨hx, nofun⟩).grown.trans hp.toGrown
  wellFormed := hp.wellFormed
  content y := by
    rw [hp.content, h.content_omitting, Content.omitting_filterMap]
    congr 1
    funext z
    by_cases e : z = x <;> simp [e]
  position y := (hp.position y).trans (position_detach d x y)

theorem WellFormed.detachAll_pruned (h : d.WellFormed) (hg : ∀ x ∈ gone, d.Holds x) :
    Pruned d gone (d.performAll (gone.map .detach)) := by
  induction gone generalizing d with
  | nil => exact .refl h
  | cons x rest ih =>
    have hx : d.Holds x := hg x List.mem_cons_self
    have he := h.perform_edited (c := .detach x) ⟨hx, nofun⟩
    have hrest : ∀ y ∈ rest, (d.perform (.detach x)).Holds y := fun y hy =>
      he.grown.holds (hg y (List.mem_cons_of_mem _ hy))
    exact .cons h hx (ih he.wellFormed hrest)

namespace Pruned

/-- A node reads as it did, without the parts that are gone. -/
theorem value (hp : Pruned d gone d') (h : d.Linked) (node : NodeId) :
    d'.value node = (d.value node).exchange (d.matched node gone) none := by
  apply h.value_exchange (P := fun _ => True) (fun _ _ _ _ _ => trivial) _ trivial
  intro y _
  rw [hp.wellFormed.value_eq, hp.content, Content.map_filterMap]
  congr 2
  funext x
  split <;> rfl

/-- If all that is gone was below a node, nothing has changed outside. -/
theorem keptOutside (hp : Pruned d gone d') (h : d.Linked) (hn : d.Holds node) (hb : ∀ x ∈ gone, d.Below node x) :
    KeptOutside d node d' := by
  apply hp.toGrown.keptOutside h hp.wellFormed.toLinked hn
  intro id ho
  refine ⟨?_, hp.position id⟩
  rw [hp.content]
  apply Content.filterMap_eq_self
  intro x hx
  have hstays : x ∉ gone := fun hg => (hb x hg).not_outside_parent h (h.parent_iff.mpr hx) ho
  rw [if_neg hstays]

end Pruned

end Document

namespace Removal

open Document (KeptOutside nestedArrays nestedArrays_wellFormed nestedArrays_found)

variable {s : Session} {node : NodeId} {found : List NodeId} {operand path : Tree} {text : String}
  {attributes : Attributes}

/-! ## The verb -/

/-- Matches other than the object itself are all taken out. -/
theorem exec_removeAll (hself : node ∉ found) (position : Option Position) (s : Session) :
    (removeAll node position found).exec s = (.ok .proceed, s.changedAll (found.map .detach)) := by
  induction found generalizing s with
  | nil => rfl
  | cons x rest ih =>
    rw [List.mem_cons, not_or] at hself
    rw [removeAll, if_neg fun e => hself.1 e.symm, Run.exec_bind_ok (Run.exec_change _ _), ih hself.2]
    rfl

/-- Removal by a path that does not find the object itself: what is found is taken out, and if there is nothing,
    that is warned about. -/
theorem exec_act (ho : operand.isObject = true) (hstated : Attributes.ofOperand [.path] operand = .ok attributes)
    (hpath : Attribute.path.setting? attributes = some path) (htext : path.string? = some text)
    (hfound : s.document.matches? node text = .ok found) (hself : node ∉ found) :
    (act node operand).exec s = (.ok .proceed,
      (if found = [] then s.missed ⟨text, path.position⟩ else s).changedAll (found.map .detach)) := by
  have hact : act node operand = removeFound node operand := by
    obtain ⟨position, content⟩ := operand
    cases content with
    | object ms => rfl
    | _ => cases ho
  have hread : pathText path = .ok text := by
    rw [pathText, htext]
  rw [hact, removeFound, Run.exec_bind_ok (Run.exec_demand_ok hstated s)]
  simp only [hpath]
  rw [Run.exec_bind_ok (Run.exec_demand_ok hread s), Run.exec_bind_ok (Run.exec_find_ok hfound path.position)]
  cases found with
  | nil => rfl
  | cons x rest =>
    rw [if_neg (List.cons_ne_nil x rest)]
    exact exec_removeAll hself path.position s

/-- Removal by a path that does not find the object itself proceeds. The object then reads as before, without
    the parts at the locations matched before anything was taken out; nothing outside has changed, and there is
    a warning exactly if nothing was found. -/
theorem act_prunes (h : s.document.WellFormed) (hn : s.document.Holds node) (ho : operand.isObject = true)
    (hstated : Attributes.ofOperand [.path] operand = .ok attributes)
    (hpath : Attribute.path.setting? attributes = some path) (htext : path.string? = some text)
    (hfound : s.document.matches? node text = .ok found) (hself : node ∉ found) :
    ∃ s', (act node operand).exec s = (.ok .proceed, s') ∧
      s'.document.value node = (s.document.value node).exchange (s.document.matched node found) none ∧
      s'.warnings = s.warnings ++ (if found = [] then [⟨text, path.position⟩] else []) ∧
      KeptOutside s.document node s'.document := by
  have hbelow := h.matches?_below hfound hself
  have hpruned := h.detachAll_pruned fun x hx => (hbelow x hx).holds h.toLinked
  refine ⟨_, exec_act ho hstated hpath htext hfound hself, ?_⟩
  have hdocument : ((if found = [] then s.missed ⟨text, path.position⟩ else s).changedAll
      (found.map .detach)).document = s.document.performAll (found.map .detach) := by
    rw [Session.document_changedAll]
    split <;> rfl
  rw [hdocument]
  refine ⟨hpruned.value h.toLinked node, ?_, hpruned.keptOutside h.toLinked hn hbelow⟩
  rw [Session.warnings_changedAll]
  split
  · exact Session.warnings_missed ..
  · exact (List.append_nil _).symm

def firstItems : Tree := .ofValue (.object [("@jdt.path", .ofString "$..[1,0,1]")])

/-- An array and the item before it go, and the last item stays. -/
theorem firstItems_pruned : ∃ s', (act ⟨1⟩ firstItems).exec ⟨nestedArrays, []⟩ = (.ok .proceed, s') ∧
    s'.document.value ⟨1⟩ = .object [("a", .array [.ofNat 9]), ("b", .ofNat 1)] ∧
    s'.warnings = [] ∧ KeptOutside nestedArrays ⟨1⟩ s'.document := by
  obtain ⟨s', hexec, hvalue, hwarnings, hkept⟩ := act_prunes (s := ⟨nestedArrays, []⟩) nestedArrays_wellFormed
    (show nestedArrays.Holds ⟨1⟩ by decide) (show firstItems.isObject = true from rfl) rfl rfl rfl
    nestedArrays_found (by decide)
  exact ⟨s', hexec, hvalue.trans rfl, hwarnings, hkept⟩

end Removal

end Reshape
