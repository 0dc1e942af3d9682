/-
  Reshape.Proofs.Transform.Matches — what is done to all matches of a path, seen as one change.

  A path finds nodes, and a verb changes one after the other. What that comes to is told by
  the locations at which the nodes were found, before anything was done to them: these are
  exchanged in the value of the node that the path starts from (`Linked.value_exchange`).
  For that it is enough to know of each node what its parts have become, one level down.

  - `Document.matched`: the locations at which nodes have been found.
  - `Session.changedAll`: a session after changes in a row, none of which can fail.
  - `KeptOutside d node d'`: outside a node nothing has changed, and the node hangs where it did.
-/

import Reshape.Proofs.Document.Refinement
import Reshape.Proofs.Json.Exchange
import Reshape.Proofs.Transform.Locality

namespace Reshape

open Relation (ReflTransGen)

namespace Document

variable {d d' : Document} {node x : NodeId} {found : List NodeId}

/-! ## Where nodes are found -/

/-- A path that does not find the node that it starts from finds only nodes below it. -/
theorem Linked.matches?_below (h : d.Linked) {path : String} (hm : d.matches? node path = .ok found)
    (hself : node ∉ found) : ∀ x ∈ found, d.Below node x := by
  rcases h.matches?_cases hm with rfl | hb
  · exact absurd List.mem_cons_self hself
  · exact hb

/-- The location leads from the node to one that was found. -/
def matched (d : Document) (node : NodeId) (found : List NodeId) (l : Location) : Bool :=
  (d.at? node l).any found.contains

theorem matched_nil (h : node ∉ found) : d.matched node found [] = false := by
  simpa [matched, at?] using h

/-- A location is matched below a part as it is below the node, with the step to the part before it. -/
theorem matched_cons {s : Step} (h : d.child? node s = some x) (l : Location) :
    d.matched node found (s :: l) = d.matched x found l := by
  rw [matched, at?, h, Option.bind_some, matched]

/-- A node whose parts have been exchanged if they were found, as have the parts of those that were not, reads
    as its value with the parts at all matched locations exchanged. -/
theorem Linked.value_exchange (h : d.Linked) {new : Option Value} {P : NodeId → Prop}
    (hparts : ∀ y, P y → ∀ x ∈ d.parts y, x ∉ found → P x)
    (hsite : ∀ y, P y →
      d'.value y = ((d.content y).filterMap fun x => if x ∈ found then new else some (d'.value x)).toValue)
    (hn : P node) : d'.value node = (d.value node).exchange (d.matched node found) new := by
  induction node using h.parts_induction with
  | step node ih =>
    rw [hsite node hn, h.value_eq node]
    symm
    apply Content.toValue_exchange (h.keys_nodup node)
    intro s x hx
    have hmem : x ∈ d.parts node := mem_parts_of_child? hx
    -- A part that was found is exchanged as a whole; in any other, the same locations count from the part on.
    have hinside : (fun l => d.matched node found (s :: l)) = d.matched x found := funext fun l => matched_cons hx l
    have hstep : d.matched node found [s] = found.contains x := by
      rw [matched_cons hx, matched, at?, Option.any_some]
    rw [Value.exchangePart, hstep, hinside]
    by_cases hf : x ∈ found
    · rw [if_pos hf, if_pos (List.contains_iff_mem.mpr hf)]
    · rw [if_neg hf, if_neg fun hc => hf (List.contains_iff_mem.mp hc), ih x hmem (hparts node hn x hmem hf)]

def nestedArrays : Document :=
  .ofValue (.object [("n", .object [("a", .array [.ofNat 7, .array [.ofNat 8], .ofNat 9]), ("b", .ofNat 1)])])

theorem nestedArrays_wellFormed : nestedArrays.WellFormed :=
  ofValue_wellFormed (by simp [Value.Keyed, Value.MembersKeyed, Value.ItemsKeyed, Value.ofNat])

/-- The first two items of every array, the second of them twice: an array, the item before it, the array again,
    and the item inside it. -/
theorem nestedArrays_found : nestedArrays.matches? ⟨1⟩ "$..[1,0,1]" = .ok [⟨4⟩, ⟨3⟩, ⟨4⟩, ⟨5⟩] := by
  decide +kernel

/-! ## What is kept outside -/

/-- `d'` differs from `d` under `node` only: all that is outside holds what it did where it did, and the node
    hangs where it did. -/
structure KeptOutside (d : Document) (node : NodeId) (d' : Document) : Prop where
  root : d'.root = d.root
  seat : d'.parent node = d.parent node
  held : ∀ {id}, d.Outside node id → d'.Holds id
  content : ∀ {id}, d.Outside node id → d'.content id = d.content id
  position : ∀ {id}, d.Outside node id → d'.position id = d.position id
  parent : ∀ {id}, d.Outside node id → d'.parent id = d.parent id

/-- Where contents outside are kept, so is where nodes hang there, and where the node itself does. -/
theorem Grown.keptOutside (hg : Grown d d') (h : d.Linked) (h' : d'.Linked) (hn : d.Holds node)
    (hout : ∀ {id}, d.Outside node id → d'.content id = d.content id ∧ d'.position id = d.position id) :
    KeptOutside d node d' := by
  -- Whoever hangs under an owner outside is listed there as before.
  have hangs : ∀ {id}, d.Holds id → (∀ owner, d.parent id = some owner → d.Outside node owner) →
      d'.parent id = d.parent id := by
    intro id hh howner
    rcases hg.parent_cases hh with e | e
    · exact e
    · cases hp : d.parent id with
      | none => exact e
      | some owner =>
        have hparts := parts_eq_of_content (hout (howner owner hp)).1
        exact h'.parent_iff.mpr (hparts ▸ h.parent_iff.mp hp)
  refine ⟨hg.root_eq, ?_, fun ho => hg.holds ho.1, fun ho => (hout ho).1, fun ho => (hout ho).2, fun ho => ?_⟩
  · exact hangs hn fun owner hp => h.outside_parent hp
  · exact hangs ho.1 fun owner hp => ⟨h.holds_owner hp, fun hu => ho.2 (.head hp hu)⟩

/-- What lies below a node hangs in nothing outside. -/
theorem Below.not_outside_parent (h : d.Linked) (hb : d.Below node x) {owner : NodeId}
    (hp : d.parent x = some owner) : ¬ d.Outside node owner := by
  obtain ⟨part, hpart, hu⟩ := hb
  intro ho
  apply ho.2
  rcases ReflTransGen.cases_head hu with rfl | ⟨y, hy, hyu⟩
  · obtain rfl : owner = node := Option.some.inj (hp.symm.trans (h.parent_iff.mpr hpart))
    exact .refl
  · obtain rfl : owner = y := Option.some.inj (hp.symm.trans hy)
    exact hyu.tail (h.parent_iff.mpr hpart)

/-- What lies below a node is not the root. -/
theorem Below.ne_root (h : d.WellFormed) (hb : d.Below node x) : x ≠ d.root := by
  obtain ⟨part, hpart, hu⟩ := hb
  rintro rfl
  rcases ReflTransGen.cases_head hu with rfl | ⟨y, hy, -⟩
  · exact nomatch h.root_free.symm.trans (h.parent_iff.mpr hpart)
  · exact nomatch h.root_free.symm.trans hy

end Document

/-! ## Changes in a row -/

def Document.performAll (d : Document) (cs : List Change) : Document := cs.foldl perform d

namespace Session

def changedAll (s : Session) (cs : List Change) : Session := cs.foldl changed s

theorem document_changedAll (s : Session) (cs : List Change) :
    (s.changedAll cs).document = s.document.performAll cs := by
  unfold changedAll Document.performAll
  induction cs generalizing s with
  | nil => rfl
  | cons c rest ih => exact ih (s.changed c)

@[simp] theorem warnings_changedAll (s : Session) (cs : List Change) :
    (s.changedAll cs).warnings = s.warnings := by
  unfold changedAll
  induction cs generalizing s with
  | nil => rfl
  | cons c rest ih => exact (ih (s.changed c)).trans (warnings_changed s c)

end Session

end Reshape
