/-
  Reshape.Proofs.Transform.RootGuard — the root of a document stays an object, and the root.

  Only two steps of the work overwrite a node. One checks first that it is not the root, or
  that what it takes over is an object (`Run.overwrite`). The other, by which literal
  members are brought in, overwrites what stands under a key, and that is never the root:
  so every change of every run spares the root (`applyTransform_spares`), be it asked for
  by a verb, by a path that leads back to the root, or by a nested transform.

  - `Document.perform_isObject`: an object stays one under every change but an overwriting.
  - `root_guarded`: throughout work that is started at the root, also work that fails, the
    root is the node that it was, hangs nowhere, is no part of anything, and is an object.
-/

import Reshape.Proofs.Transform.Chaining

namespace Reshape

open Document (Local)

namespace Document

variable {d d' : Document} {id : NodeId}

/-! ## Objects stay objects -/

theorem withContent_isObject (ho : d.isObject id = true) {x : NodeId} {c : Content NodeId}
    (hc : id = x → c.isObject = true) : (d.withContent x c).isObject id = true := by
  rw [isObject, content_withContent]
  split
  · rename_i h
    exact hc h.1
  · exact ho

theorem withParent_isObject (ho : d.isObject id = true) (x : NodeId) (p : Option NodeId) :
    (d.withParent x p).isObject id = true := by
  rw [isObject, content_withParent]
  exact ho

theorem add_isObject (ho : d.isObject id = true) (t : Tree) : (d.add t none).isObject id = true := by
  rw [isObject, content, node_add_held t none (holds_of_isObject ho)]
  exact ho

theorem removeProperty?_isObject (ho : d.isObject id = true) {object : NodeId} {key : String}
    (hd : d.removeProperty? object key = some d') : d'.isObject id = true := by
  obtain ⟨m, -, -, rfl⟩ := removeProperty?_eq_some hd
  exact withParent_isObject (withContent_isObject ho fun _ => rfl) _ _

theorem renameProperty?_isObject (ho : d.isObject id = true) {object : NodeId} {old new : String}
    (hd : d.renameProperty? object old new = some d') : d'.isObject id = true := by
  unfold renameProperty? at hd
  split at hd
  · cases hd
  · split at hd
    · obtain rfl := Option.some.inj hd
      exact ho
    · obtain rfl := Option.some.inj hd
      refine withContent_isObject ?_ fun _ => rfl
      cases hr : d.removeProperty? object new with
      | none => exact ho
      | some cleared => exact removeProperty?_isObject ho hr

theorem detach?_isObject (ho : d.isObject id = true) {target : NodeId} (hd : d.detach? target = some d') :
    d'.isObject id = true := by
  unfold detach? at hd
  split at hd
  · cases hd
  · exact removeProperty?_isObject ho hd
  · rename_i array index hs
    obtain ⟨-, hc, -⟩ := slot_element hs
    obtain rfl := Option.some.inj hd
    refine withParent_isObject (withContent_isObject ho ?_) _ _
    rintro rfl
    rw [isObject, hc] at ho
    cases ho

theorem push_isObject (ho : d.isObject id = true) (array value : NodeId) :
    (d.push array value).isObject id = true := by
  unfold push
  split
  · rename_i items hc
    refine withParent_isObject (withContent_isObject ho ?_) _ _
    rintro rfl
    rw [isObject, hc] at ho
    cases ho
  · exact ho

theorem append_isObject (ho : d.isObject id = true) (array : NodeId) (items : List Tree) :
    (d.append array items).isObject id = true := by
  induction items generalizing d with
  | nil => exact ho
  | cons t rest ih => exact ih (push_isObject (add_isObject ho t) array d.nextId)

theorem setProperty_isObject (ho : d.isObject id = true) (object : NodeId) (key : String)
    (position : Option Position) (value : NodeId) :
    (d.setProperty object key position value).isObject id = true := by
  by_cases h : d.isObject object = true
  · rw [isObject, content_setProperty key position value (content_of_isObject h)]
    split
    · rfl
    · exact ho
  · rw [setProperty_of_not_isObject key position h]
    exact ho

/-- An object stays one, unless it is overwritten with something else. -/
theorem perform_isObject {c : Change} (ho : d.isObject id = true)
    (hc : ∀ t, c = .overwrite id t → t.isObject = true) : (d.perform c).isObject id = true := by
  have hh := holds_of_isObject ho
  cases c with
  | overwrite target t =>
    by_cases e : id = target
    · subst e
      show (d.replace id t).isObject id = true
      rw [isObject, content_replace_self hh]
      have ht := hc t rfl
      rw [Tree.isObject] at ht
      cases hcontent : t.content <;> simp_all [Content.isObject, Content.ids]
    · show (d.replace target t).isObject id = true
      rw [isObject, content_replace hh e]
      exact ho
  | append array items => exact append_isObject ho array items
  | insert object m => exact setProperty_isObject (add_isObject ho m.value) object m.key m.position d.nextId
  | remove object key =>
    show ((d.removeProperty? object key).getD d).isObject id = true
    cases hd : d.removeProperty? object key with
    | none => exact ho
    | some d' => exact removeProperty?_isObject ho hd
  | detach target =>
    show ((d.detach? target).getD d).isObject id = true
    cases hd : d.detach? target with
    | none => exact ho
    | some d' => exact detach?_isObject ho hd
  | rename target name =>
    show ((d.renameHolder? target name).getD d).isObject id = true
    unfold renameHolder?
    split
    · rename_i object key _
      cases hd : d.renameProperty? object key name with
      | none => exact ho
      | some d' => exact renameProperty?_isObject ho hd
    · exact ho

/-! ## The root -/

/-- The document's root is this node, which hangs nowhere, is no part of any node, and is an object. -/
structure Rooted (d : Document) (root : NodeId) : Prop where
  root_eq : d.root = root
  parent_none : d.parent root = none
  not_part : ∀ id, root ∉ d.parts id
  object : d.isObject root = true

theorem WellFormed.rooted (h : d.WellFormed) {root : NodeId} (he : d.root = root)
    (ho : d.isObject root = true) : d.Rooted root := by
  subst he
  refine ⟨rfl, h.root_free, fun id hp => ?_, ho⟩
  have hpar := h.parent_iff.mpr hp
  rw [h.root_free] at hpar
  cases hpar

/-- The change does not overwrite the root with anything but an object. Of a document that is not
    well-formed, where the root may hang under a key, this says nothing. -/
def SparesRoot (d : Document) (c : Change) : Prop :=
  d.WellFormed → ∀ t, c = .overwrite d.root t → t.isObject = true

theorem WellFormed.get?_ne_root (h : d.WellFormed) {object : NodeId} {key : String}
    (hg : d.get? object key = some id) : id ≠ d.root := by
  rintro rfl
  have hpar := h.parent_iff.mpr (mem_parts_of_get? hg)
  rw [h.root_free] at hpar
  cases hpar

/-- A literal member is never brought in by overwriting the root. -/
theorem literalChange?_spares {object : NodeId} {m : Member Tree} {c : Change}
    (hc : d.literalChange? object m = some c) : d.SparesRoot c := by
  intro h t ht
  unfold literalChange? at hc
  split at hc
  · rename_i existing hg
    split at hc
    · obtain rfl := Option.some.inj hc
      cases ht
    · split at hc
      · cases hc
      · obtain rfl := Option.some.inj hc
        obtain ⟨he, -⟩ := Change.overwrite.inj ht
        exact absurd he (h.get?_ne_root hg)
  · obtain rfl := Option.some.inj hc
    cases ht

end Document

open Document (SparesRoot)
open Run (Always)

/-! ## Every step spares the root -/

theorem Run.overwrite_spares (target : NodeId) (t : Tree) (position : Option Position) :
    Always SparesRoot (Run.overwrite target t position) := by
  intro s
  rw [exec_overwrite]
  split
  · exact .refl _ _
  · rename_i hguard
    refine .changed fun _ u hu => ?_
    obtain ⟨rfl, rfl⟩ := Change.overwrite.inj hu
    simpa [Document.isRoot] using hguard

/-- A change that overwrites nothing spares the root. -/
theorem Document.sparesRoot_of_ne {c : Change} (hc : ∀ target t, c ≠ .overwrite target t) (d : Document) :
    d.SparesRoot c := fun _ t ht => absurd ht (hc d.root t)

theorem Run.change_spares {c : Change} (hc : ∀ target t, c ≠ .overwrite target t) :
    Always SparesRoot (Run.change c) := .change (Document.sparesRoot_of_ne hc)

namespace Removal

theorem act_spares (node : NodeId) (operand : Tree) : Always SparesRoot (act node operand) :=
  act_always (fun d _ _ => d.sparesRoot_of_ne (by simp)) (fun d _ => d.sparesRoot_of_ne (by simp)) node operand

end Removal

namespace Replacement

theorem replaceSelf_spares (node : NodeId) (operand : Tree) : Always SparesRoot (replaceSelf node operand) :=
  .bind (Run.overwrite_spares _ _ _) fun _ => .of_pure _

theorem replaceAll_spares (node : NodeId) (value : Tree) (found : List NodeId) :
    Always SparesRoot (replaceAll node value found) := by
  induction found with
  | nil => exact .of_pure _
  | cons target rest ih =>
    refine .bind (Run.overwrite_spares _ _ _) fun _ => ?_
    split
    · exact .of_pure _
    · exact ih

theorem act_spares (node : NodeId) (operand : Tree) : Always SparesRoot (act node operand) := by
  unfold act
  split
  · exact replaceSelf_spares _ _
  · refine .bind (.demand _) fun found? => ?_
    split
    · exact replaceSelf_spares _ _
    · exact .bind (.find _ _ _) fun found => replaceAll_spares _ _ _

end Replacement

namespace Renaming

theorem renameNode_spares (target : NodeId) (name : String) (position : Option Position) :
    Always SparesRoot (renameNode target name position) := by
  refine .bind .document fun d => ?_
  split
  · exact Run.change_spares nofun
  · exact .fail _ _

theorem renamePairs_spares (node : NodeId) (pairs : List (Member Tree)) :
    Always SparesRoot (renamePairs node pairs) := by
  induction pairs with
  | nil => exact .of_pure _
  | cons pair rest ih =>
    rw [renamePairs]
    split
    · exact .fail _ _
    · refine .bind .document fun d => ?_
      split
      · exact .bind (renameNode_spares _ _ _) fun _ => ih
      · exact .bind (.warn _ _) fun _ => ih

theorem renameAll_spares (name : String) (position : Option Position) (found : List NodeId) :
    Always SparesRoot (renameAll name position found) := by
  induction found with
  | nil => exact .of_pure _
  | cons target rest ih => exact .bind (renameNode_spares _ _ _) fun _ => ih

theorem act_spares (node : NodeId) (operand : Tree) : Always SparesRoot (act node operand) := by
  unfold act
  split
  · exact .fail _ _
  · refine .bind (.demand _) fun found? => ?_
    split
    · exact .bind (renamePairs_spares _ _) fun _ => .of_pure _
    · split
      · exact .fail _ _
      · refine .bind (.find _ _ _) fun found => ?_
        split
        · exact .bind (.warn _ _) fun _ => .bind (renameAll_spares _ _ _) fun _ => .of_pure _
        · exact .bind (renameAll_spares _ _ _) fun _ => .of_pure _

end Renaming

section Nested

variable {nested : Tree → NodeId → Run Unit} (hN : ∀ t node, Always SparesRoot (nested t node))
include hN

namespace Merging

theorem mergeOne_spares (node : NodeId) (value : Tree) (position : Option Position) (target : NodeId) :
    Always SparesRoot (mergeOne nested node value position target) := by
  refine .bind .document fun d => ?_
  split
  · exact .bind (hN _ _) fun _ => .of_pure _
  · split
    · exact .bind (Run.change_spares nofun) fun _ => .of_pure _
    · exact .bind (Run.overwrite_spares _ _ _) fun _ => .of_pure _

theorem mergeAll_spares (node : NodeId) (value : Tree) (position : Option Position) (found : List NodeId) :
    Always SparesRoot (mergeAll nested node value position found) := by
  induction found with
  | nil => exact .of_pure _
  | cons target rest ih =>
    exact .bind (mergeOne_spares hN _ _ _ _) fun _ => .bind ih fun _ => .of_pure _

theorem act_spares (node : NodeId) (operand : Tree) : Always SparesRoot (act nested node operand) := by
  unfold act
  split
  · exact .bind (Run.overwrite_spares _ _ _) fun _ => .of_pure _
  · refine .bind (.demand _) fun found? => ?_
    split
    · exact .bind (hN _ _) fun _ => .of_pure _
    · exact .bind (.find _ _ _) fun found => mergeAll_spares hN _ _ _ _

end Merging

omit hN in
theorem Merging.mergeLiterals_spares (node : NodeId) (ms : List (Member Tree)) :
    Always SparesRoot (mergeLiterals node ms) := by
  induction ms with
  | nil => exact .of_pure _
  | cons m rest ih =>
    intro s
    rw [mergeLiterals, Run.exec_bind_ok (Run.exec_document s)]
    cases hc : s.document.literalChange? node m with
    | none => exact ih s
    | some c => exact .bind (.changed (Document.literalChange?_spares hc)) fun _ mid _ _ => ih mid

theorem descend_spares (node : NodeId) (ms : List (Member Tree)) :
    Always SparesRoot (descend nested node ms) := by
  induction ms with
  | nil => exact .of_pure _
  | cons m rest ih =>
    refine .bind .document fun d => ?_
    split
    · exact ih
    · exact .bind (hN _ _) fun _ => .bind ih fun _ => .of_pure _

theorem Verb.act_spares (verb : Verb) (node : NodeId) (operand : Tree) :
    Always SparesRoot (verb.act nested node operand) := by
  cases verb with
  | remove => exact Removal.act_spares node operand
  | replace => exact Replacement.act_spares node operand
  | rename => exact Renaming.act_spares node operand
  | merge => exact Merging.act_spares hN node operand

theorem Verb.actAll_spares (verb : Verb) (node : NodeId) (operands : List Tree) :
    Always SparesRoot (verb.actAll nested node operands) := by
  induction operands with
  | nil => exact .of_pure _
  | cons operand rest ih =>
    refine .bind (Verb.act_spares hN verb node operand) fun flow => ?_
    cases flow with
    | halt => exact .of_pure _
    | proceed => exact ih

theorem Stage.run_spares (stage : Stage) (t : Tree) (node : NodeId) :
    Always SparesRoot (stage.run nested t node) := by
  cases stage with
  | validation => exact .bind (.demand _) fun _ => .of_pure _
  | recursion => exact .bind (descend_spares hN node _) fun _ => .of_pure _
  | verb v =>
    rw [Stage.run, Verb.apply_eq]
    exact .bind (Verb.actAll_spares hN v node _) fun _ => .of_pure _
  | literals => exact .bind (Merging.mergeLiterals_spares node _) fun _ => .of_pure _

theorem runStages_spares (stages : List Stage) (t : Tree) (node : NodeId) :
    Always SparesRoot (runStages nested stages t node) := by
  induction stages generalizing t with
  | nil => exact .of_pure _
  | cons stage rest ih =>
    refine .bind (Stage.run_spares hN stage t node) fun outcome => ?_
    obtain ⟨flow, done⟩ := outcome
    cases flow with
    | halt => exact .of_pure _
    | proceed => exact ih _

end Nested

theorem applyWithin_spares (depth : Nat) (t : Tree) (node : NodeId) :
    Always SparesRoot (applyWithin depth t node) := by
  induction depth generalizing t node with
  | zero => exact .of_pure _
  | succ depth ih => exact runStages_spares ih Stage.all t node

/-- No change of any run overwrites the root with anything but an object. -/
theorem applyTransform_spares (t : Tree) (node : NodeId) : Always SparesRoot (applyTransform t node) :=
  applyWithin_spares (t.height + 1) t node

/-! ## The guard -/

/-- Before, throughout and after work on the root of a document, whether it ends well or fails, the root is
    the node that it was, hangs nowhere, is no part of any node, and is an object. -/
theorem root_guarded {s : Session} {t : Tree} (h : s.document.WellFormed)
    (ho : s.document.isObject s.document.root = true) (ht : t.Keyed) :
    ∃ events, ((applyTransform t s.document.root).exec s).2.events = events ++ s.events ∧
      ((applyTransform t s.document.root).exec s).2.document = s.document.after events ∧
      ∀ past, past <:+ events → (s.document.after past).Rooted s.document.root := by
  have hlocal := applyTransform_obeys.keeps h h.root_held ht
  have hspares := applyTransform_spares t s.document.root s
  -- The changes keep to what is under the root, so the document stays well-formed and its root the same.
  let guarded : Document → Prop := fun d =>
    Document.Confined s.document s.document.root d ∧ d.isObject s.document.root = true
  have step : ∀ d c, guarded d → Local s.document s.document.root d c ∧ d.SparesRoot c →
      guarded (d.perform c) := by
    rintro d c ⟨hd, hdo⟩ ⟨hl, hs⟩
    refine ⟨hd.perform hl, Document.perform_isObject hdo fun u hu => ?_⟩
    exact hs hd.wellFormed u (hd.root_eq ▸ hu)
  obtain ⟨events, he, hdoc, hall⟩ := (hlocal.and hspares).throughout (I := guarded) ⟨.refl h _, ho⟩ step
  refine ⟨events, he, hdoc, fun past hp => ?_⟩
  obtain ⟨hc, hobj⟩ := hall past hp
  exact hc.wellFormed.rooted hc.root_eq hobj

def singleProperty : Document := Document.ofValue (.object [("a", .scalar .null)])

/-- A transform that renames the property, and then merges into its object a transform that would replace the
    object with what is none. -/
def replacementOntoSelf : Tree :=
  .ofValue (.object [("@jdt.rename", .object [("a", .ofString "b")]),
    ("@jdt.merge", .object [("@jdt.path", .ofString "$"),
      ("@jdt.value", .object [("@jdt.replace", .scalar .null)])])])

/-- A nested transform would replace the root; the work fails after it has changed the document, and the root
    is as it should be at every moment. -/
theorem root_guarded_from_replacement :
    ((applyTransform replacementOntoSelf ⟨0⟩).exec ⟨singleProperty, []⟩).1 =
        .error (.inTransform .replacesRoot none) ∧
      ∃ events, ((applyTransform replacementOntoSelf ⟨0⟩).exec ⟨singleProperty, []⟩).2.events = events ++ [] ∧
        ((applyTransform replacementOntoSelf ⟨0⟩).exec ⟨singleProperty, []⟩).2.document =
          singleProperty.after events ∧
        ∀ past, past <:+ events → (singleProperty.after past).Rooted ⟨0⟩ := by
  refine ⟨by decide +kernel, ?_⟩
  have hwf : singleProperty.WellFormed :=
    Document.ofValue_wellFormed (by simp [Value.Keyed, Value.MembersKeyed])
  have hkeyed : replacementOntoSelf.Keyed :=
    Tree.keyed_ofValue _ (by simp [Value.Keyed, Value.MembersKeyed, Value.ofString])
  exact root_guarded (s := ⟨singleProperty, []⟩) hwf rfl hkeyed

end Reshape
