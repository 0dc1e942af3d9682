/-
  Reshape.Proofs.Transform.Independence — a transform acts on values.

  What applying a transform comes to is settled by the value of the source and the value of
  the transform. How the two are stored plays no part in it: which handles their nodes have,
  where nodes and keys stand, and what lies in the stores without hanging anywhere.

  - `applyTransform_independent`: the nodes of two sources of one value are counterparts on
    the same way down from the roots (`alike_of_rootValue`), and work keeps in step from there.
    So how a text is laid out, and what comments it has, does not show in what is made of it.
-/

import Reshape.Proofs.Transform.Likeness

namespace Reshape

/-- Warnings of the same names say the same. -/
theorem Session.Alike.messages_eq {R : Pairing} {s u : Session} (h : Session.Alike R s u) :
    s.warnings.map Warning.message = u.warnings.map Warning.message := by
  have names : ∀ ws : List Warning, ws.map Warning.message = (ws.map Warning.name).map notFoundMessage :=
    fun ws => (List.map_map ..).symm
  rw [names, names, h.warnings]

/-- Work on the roots of documents of one value keeps in step. -/
theorem Tree.Alike.applied {t u : Tree} (h : t.Alike u) {d e : Document} (hd : d.WellFormed) (he : e.WellFormed)
    (hv : d.rootValue = e.rootValue) :
    SameVerdict Eq ((applyTransform t d.root).exec ⟨d, []⟩).1 ((applyTransform u e.root).exec ⟨e, []⟩).1 ∧
      ∃ R, Session.Alike R ((applyTransform t d.root).exec ⟨d, []⟩).2
        ((applyTransform u e.root).exec ⟨e, []⟩).2 := by
  have halike := Document.alike_of_rootValue hd he hv
  obtain ⟨S, -, hS, hverdict⟩ := applyTransform_inStep halike.root h ⟨d, []⟩ ⟨e, []⟩ ⟨halike, rfl⟩
  exact ⟨hverdict, S, hS⟩

/-- Applied to the roots of sources of one value, transforms of one value come to the same verdict, leave the
    same value and warn of the same, however each of the four documents is stored. -/
theorem applyTransform_independent {source source' transform transform' : Document}
    (hs : source.WellFormed) (hs' : source'.WellFormed) (hv : source.rootValue = source'.rootValue)
    (ht : transform.WellFormed) (ht' : transform'.WellFormed)
    (hw : transform.rootValue = transform'.rootValue) :
    let first := (applyTransform (transform.tree transform.root) source.root).exec ⟨source, []⟩
    let second := (applyTransform (transform'.tree transform'.root) source'.root).exec ⟨source', []⟩
    SameVerdict Eq first.1 second.1 ∧ first.2.document.rootValue = second.2.document.rootValue ∧
      first.2.warnings.map Warning.message = second.2.warnings.map Warning.message := by
  have htree : (transform.tree transform.root).Alike (transform'.tree transform'.root) :=
    ⟨hw, ht.tree_keyed _, ht'.tree_keyed _⟩
  obtain ⟨hverdict, S, hS⟩ := htree.applied hs hs' hv
  exact ⟨hverdict, hS.document.rootValue_eq, hS.messages_eq⟩

/-! ## One value, stored in two ways -/

namespace Document

def laidOut : Document := ofValue (.object [("a", .scalar .null)])

/-- The same object, put together in a store that holds a node besides. -/
def pieced : Document :=
  ((ofValue (.object [])).add (Tree.ofValue (.scalar (.bool true))) none).perform
    (.insert ⟨0⟩ ⟨"a", some ⟨3, 7⟩, ⟨some ⟨3, 12⟩, .scalar .null⟩⟩)

def renames : Document :=
  ofValue (.object [("@jdt.rename", .object [("a", .ofString "b")]), ("@jdt.remove", .ofString "z")])

def renamesRead : Document :=
  ofTree ⟨some ⟨1, 1⟩, .object [
    ⟨"@jdt.rename", some ⟨2, 3⟩, ⟨some ⟨2, 18⟩, .object [
      ⟨"a", some ⟨2, 20⟩, ⟨some ⟨2, 25⟩, .scalar (.string "b")⟩⟩]⟩⟩,
    ⟨"@jdt.remove", some ⟨3, 3⟩, ⟨some ⟨3, 18⟩, .scalar (.string "z")⟩⟩]⟩

theorem laidOut_wellFormed : laidOut.WellFormed :=
  ofValue_wellFormed (by simp [Value.Keyed, Value.MembersKeyed])

theorem pieced_wellFormed : pieced.WellFormed := by
  have hempty : (ofValue (.object [])).WellFormed := ofValue_wellFormed (by simp [Value.Keyed, Value.MembersKeyed])
  have hadd := hempty.add (t := Tree.ofValue (.scalar (.bool true))) (by simp [Tree.ofValue, Tree.Keyed])
  refine hadd.perform ⟨by decide, fun t ht => ?_⟩
  obtain rfl := List.mem_singleton.mp ht
  simp [Tree.Keyed]

theorem renames_wellFormed : renames.WellFormed :=
  ofValue_wellFormed (by simp [Value.Keyed, Value.MembersKeyed, Value.ofString])

theorem renamesRead_wellFormed : renamesRead.WellFormed :=
  ofTree_wellFormed (by simp [Tree.Keyed, Tree.MembersKeyed])

/-- The property has another handle in the other store, and the work comes to the same. -/
theorem laidOut_as_pieced :
    laidOut.get? laidOut.root "a" = some ⟨1⟩ ∧ pieced.get? pieced.root "a" = some ⟨2⟩ ∧
      (let first := (applyTransform (renames.tree renames.root) laidOut.root).exec ⟨laidOut, []⟩
      let second := (applyTransform (renamesRead.tree renamesRead.root) pieced.root).exec ⟨pieced, []⟩
      SameVerdict Eq first.1 second.1 ∧ first.2.document.rootValue = second.2.document.rootValue ∧
        first.2.warnings.map Warning.message = second.2.warnings.map Warning.message) := by
  have hsources : laidOut.rootValue = pieced.rootValue := rfl
  have htransforms : renames.rootValue = renamesRead.rootValue := rfl
  exact ⟨by decide, by decide, applyTransform_independent laidOut_wellFormed pieced_wellFormed hsources
    renames_wellFormed renamesRead_wellFormed htransforms⟩

end Document

end Reshape
