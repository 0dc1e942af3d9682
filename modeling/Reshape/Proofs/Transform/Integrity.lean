/-
  Reshape.Proofs.Transform.Integrity — documents are well-formed, whatever is done to them.

  `Made` and `Mutates` list how documents come to be and how they are changed: by reading a
  text or a value, by the changes to single nodes on handles in use, and by applying a
  transform, which may fail on the way. Each makes, or keeps, a document well-formed.
-/

import Reshape.Proofs.Transform.Chaining

namespace Reshape

namespace Document

/-- How documents come to be. A value comes with unique keys in its objects. -/
inductive Made : Document → Prop
  | parse {text : String} {d : Document} : parse text = .ok d → Made d
  | ofValue {v : Value} : v.Keyed → Made (ofValue v)

/-- How a document is changed; `o` is a document that is copied from. -/
inductive Mutates : Document → Document → Prop
  | add {d o : Document} (id : NodeId) : o.WellFormed → Mutates d (d.add (o.tree id) none)
  | replace {d o : Document} {target : NodeId} (id : NodeId) : o.WellFormed → d.Holds target →
      Mutates d (d.replace target (o.tree id))
  | append {d o : Document} {array : NodeId} (id : NodeId) : o.WellFormed → d.Holds array →
      Mutates d (d.append array ((o.items id).map o.tree))
  | removeProperty {d d' : Document} {object : NodeId} {key : String} :
      d.removeProperty? object key = some d' → Mutates d d'
  | renameProperty {d d' : Document} {object : NodeId} {old new : String} :
      d.renameProperty? object old new = some d' → Mutates d d'
  | detach {d d' : Document} {id : NodeId} : d.detach? id = some d' → Mutates d d'
  | setProperty {d : Document} {object value : NodeId} (key : String) (position : Option Position) :
      d.Holds value → d.parent value = none → value ≠ d.root → ¬ d.Under value object →
      Mutates d (d.setProperty object key position value)
  | push {d : Document} {array value : NodeId} :
      d.Holds value → d.parent value = none → value ≠ d.root → ¬ d.Under value array →
      Mutates d (d.push array value)
  | transform {s : Session} {o : Document} {node : NodeId} (id : NodeId) :
      o.WellFormed → s.document.Holds node →
      Mutates s.document ((applyTransform (o.tree id) node).exec s).2.document

end Document

/-- Work on a node of a well-formed document leaves the document well-formed, also work that fails. -/
theorem applyTransform_wellFormed {s : Session} {node : NodeId} {t : Tree} (h : s.document.WellFormed)
    (hn : s.document.Holds node) (ht : t.Keyed) : ((applyTransform t node).exec s).2.document.WellFormed :=
  ((Working.start h hn).after (applyTransform_obeys.keeps h hn ht)).wellFormed

namespace Document

/-- Every document is well-formed when it is made, and stays so whatever is done to it. -/
theorem wellFormed_made_mutated :
    (∀ d, Made d → d.WellFormed) ∧ ∀ d d', d.WellFormed → Mutates d d' → d'.WellFormed := by
  refine ⟨fun d hd => ?_, fun d d' h hm => ?_⟩
  · cases hd with
    | parse hp => exact parse_wellFormed hp
    | ofValue hv => exact ofValue_wellFormed hv
  · cases hm with
    | add id ho => exact h.add (ho.tree_keyed id)
    | replace id ho ht => exact (h.overwrite_edited ht (ho.tree_keyed id)).wellFormed
    | append id ho ha =>
      refine (h.append_edited ha fun t ht => ?_).wellFormed
      obtain ⟨item, -, rfl⟩ := List.mem_map.mp ht
      exact ho.tree_keyed item
    | removeProperty hd => exact (h.removeProperty_edited hd).wellFormed
    | renameProperty hd => exact (h.renameProperty_edited hd).1.wellFormed
    | detach hd =>
      obtain ⟨owner, -, he, -⟩ := h.detach_edited hd
      exact he.wellFormed
    | setProperty key position hv hfree hroot hu => exact h.setProperty key position hv hfree hroot hu
    | push hv hfree hroot hu => exact h.push hv hfree hroot hu
    | transform id ho hn => exact applyTransform_wellFormed h hn (ho.tree_keyed id)

def pair : Document := ofValue (.object [("a", .scalar .null), ("b", .object [])])

/-- The transform that removes its object, which fails on a root. -/
def removal : Document := ofValue (.object [("@jdt.remove", .scalar (.bool true))])

/-- A property is detached and comes back under another key, and a transform is applied that fails. -/
theorem wellFormed_pair_reattached :
    ((applyTransform (removal.tree ⟨0⟩) ⟨0⟩).exec
      ⟨((pair.detach? ⟨1⟩).getD pair).setProperty ⟨0⟩ "c" none ⟨1⟩, []⟩).2.document.WellFormed := by
  obtain ⟨made, mutated⟩ := wellFormed_made_mutated
  have hpair := made pair (.ofValue (by simp [Value.Keyed, Value.MembersKeyed]))
  have hremoval := made removal (.ofValue (by simp [Value.Keyed, Value.MembersKeyed]))
  have hdetach : pair.detach? ⟨1⟩ = some ((pair.detach? ⟨1⟩).getD pair) := rfl
  have hfree := mutated pair _ hpair (.detach hdetach)
  have hset : (((pair.detach? ⟨1⟩).getD pair).setProperty ⟨0⟩ "c" none ⟨1⟩).WellFormed := by
    refine mutated _ _ hfree (.setProperty "c" none (by decide) rfl (by decide) fun hu => ?_)
    rcases Relation.ReflTransGen.cases_head hu with e | ⟨owner, ho, -⟩
    · cases e
    · cases ho
  exact mutated _ _ hset (.transform (s := ⟨_, []⟩) ⟨0⟩ hremoval (by decide))

end Document

end Reshape
