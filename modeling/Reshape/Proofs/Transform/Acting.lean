/-
  Reshape.Proofs.Transform.Acting — what the stages of the work do to the document.

  Work on an object starts from a well-formed document and is confined to what is under the
  object (`Working`). It changes nodes that are inside the object, the object itself, and
  the property that holds it; it goes on with handles that it found earlier, which stay
  inside whatever has happened to them (`Inside.after`).

  - Every change of a verb is within reach, also of one that fails (`Verb.act_leads`).
  - A step that says `proceed` has left the object in its place (`Minds`): the object is
    taken out or overwritten only by a step that halts. The one exception is a `merge`
    that applies an object to the object itself by a path (`Merging.OntoSelf`): what the
    nested work has done to the object is not passed on.
  - `Obeys`: what the stages rely on of the work on nested transforms.
-/

import Reshape.Proofs.Document.Scope
import Reshape.Proofs.Transform.Operands
import Reshape.Proofs.Transform.Running

namespace Reshape

open Document (Local Confined Grown Within Apart Below)

/-- A change within reach that leaves the node in its place. -/
structure Document.Gentle (d₀ : Document) (node : NodeId) (d : Document) (c : Change) : Prop
    extends Local d₀ node d c where
  spares : ¬ c.Unseats d node

open Document (Gentle)

/-! ## Work on an object -/

structure Working (d₀ : Document) (node : NodeId) (s : Session) : Prop where
  origin : d₀.WellFormed
  held : d₀.Holds node
  confined : Confined d₀ node s.document

structure Inside (d₀ : Document) (node : NodeId) (s : Session) (x : NodeId) : Prop where
  held : s.document.Holds x
  within : d₀.Within node x
  apart : s.document.Apart node x

variable {d₀ : Document} {node : NodeId} {s s' : Session}

theorem Leads.toLocal (h : Leads (Gentle d₀ node) s s') : Leads (Local d₀ node) s s' :=
  h.mono fun _ _ hg => hg.toLocal

namespace Working

theorem start (h : s.document.WellFormed) (hn : s.document.Holds node) : Working s.document node s :=
  ⟨h, hn, .refl h node⟩

variable (h : Working d₀ node s)
include h

theorem wellFormed : s.document.WellFormed := h.confined.wellFormed

theorem holds : s.document.Holds node := h.confined.holds h.held

theorem after (hl : Leads (Local d₀ node) s s') : Working d₀ node s' :=
  ⟨h.origin, h.held, hl.preserves h.confined fun _ _ hc hp => hc.perform hp⟩

theorem grown (hl : Leads (Local d₀ node) s s') : Grown s.document s'.document :=
  (hl.preserves (I := fun d => d.WellFormed ∧ Grown s.document d) ⟨h.wellFormed, .refl _⟩ fun _ _ hc hp =>
    ⟨hc.1.perform hp.fits, hc.2.trans (hc.1.perform_edited hp.fits).grown⟩).2

/-- What lies below the node is inside. -/
theorem inside {x : NodeId} (hb : s.document.Below node x) : Inside d₀ node s x where
  held := hb.holds h.wellFormed.toLinked
  within := h.confined.within_of_under h.origin.toLinked (Or.inr .refl) (hb.under h.wellFormed.toLinked)
  apart := hb.apart h.wellFormed.toLinked

/-- A change to the node itself is within reach. -/
theorem local_self {c : Change} (ht : c.target = node) (hk : ∀ t ∈ c.copies, t.Keyed) :
    Local d₀ node s.document c :=
  ⟨⟨ht ▸ h.holds, hk⟩, ht ▸ Or.inr .refl⟩

/-- A change to the node itself leaves it in its place, unless it says otherwise. -/
theorem gentle_self {c : Change} (ht : c.target = node) (hk : ∀ t ∈ c.copies, t.Keyed)
    (hd : c ≠ .detach node) (ho : ∀ t, c ≠ .overwrite node t) : Gentle d₀ node s.document c :=
  ⟨h.local_self ht hk, h.wellFormed.spares_self ⟨ht ▸ h.holds, hk⟩ ht hd ho⟩

end Working

namespace Inside

variable {x : NodeId} (hx : Inside d₀ node s x) (h : Working d₀ node s)
include hx h

/-- A handle to the inside stays one, whatever happens to its node. -/
theorem after (hl : Leads (Local d₀ node) s s') : Inside d₀ node s' x :=
  have hg := h.grown hl
  ⟨hg.holds hx.held, hx.within, hx.apart.mono h.wellFormed.toLinked h.holds hx.held hg⟩

theorem gentle {c : Change} (ht : c.target = x) (hk : ∀ t ∈ c.copies, t.Keyed) :
    Gentle d₀ node s.document c where
  fits := ⟨ht ▸ hx.held, hk⟩
  within := ht ▸ hx.within
  spares := hx.apart.spared h.wellFormed h.holds ⟨ht ▸ hx.held, hk⟩ ht

end Inside

/-! ## Nested work -/

/-- What the stages rely on of the work on nested transforms: it keeps to what is under its
    object, and a transform that states no verb leaves the object in its place. -/
structure Obeys (nested : Tree → NodeId → Run Unit) : Prop where
  keeps : ∀ {t : Tree} {node : NodeId} {s : Session}, s.document.WellFormed → s.document.Holds node → t.Keyed →
    Leads (Local s.document node) s ((nested t node).exec s).2
  plain : ∀ {t : Tree} {node : NodeId} {s : Session}, s.document.WellFormed → s.document.Holds node → t.Keyed →
    (∀ m ∈ t.members, Verb.ofKey? m.key = none) → Leads (Gentle s.document node) s ((nested t node).exec s).2

namespace Obeys

variable {nested : Tree → NodeId → Run Unit} (hN : Obeys nested) {t : Tree} (ht : t.Keyed)
include hN ht

/-- Nested work on something inside leaves the node in its place. -/
theorem inside (h : Working d₀ node s) {x : NodeId} (hx : Inside d₀ node s x) :
    Leads (Gentle d₀ node) s ((nested t x).exec s).2 := by
  have hl := hN.keeps h.wellFormed hx.held ht
  refine (hl.upgrade (I := Confined s.document x) (.refl h.wellFormed x) fun d c hc hp => ?_).1
  have hlocal := h.confined.localize h.origin.toLinked hx.within hp
  have hspares := hc.spares h.wellFormed.toLinked hx.apart h.holds hp
  exact ⟨⟨hlocal, hspares⟩, hc.perform hp⟩

theorem itself (h : Working d₀ node s) : Leads (Local d₀ node) s ((nested t node).exec s).2 :=
  (hN.keeps h.wellFormed h.holds ht).mono fun _ _ hp =>
    h.confined.localize h.origin.toLinked (Or.inr .refl) hp

theorem itselfPlain (h : Working d₀ node s) (hp : ∀ m ∈ t.members, Verb.ofKey? m.key = none) :
    Leads (Gentle d₀ node) s ((nested t node).exec s).2 :=
  (hN.plain h.wellFormed h.holds ht hp).mono fun _ _ hg =>
    ⟨h.confined.localize h.origin.toLinked (Or.inr .refl) hg.toLocal, hg.spares⟩

end Obeys

/-! ## Steps that may halt -/

/-- The step keeps within reach, and if it says `proceed` it has left the node in its place. -/
structure Minds (d₀ : Document) (node : NodeId) (s : Session) (m : Run Flow) : Prop where
  leads : Leads (Local d₀ node) s (m.exec s).2
  proceeds : (m.exec s).1 = .ok .proceed → Leads (Gentle d₀ node) s (m.exec s).2

namespace Minds

variable {α : Type} {m : Run Flow}

theorem of_gentle (h : Leads (Gentle d₀ node) s (m.exec s).2) : Minds d₀ node s m := ⟨h.toLocal, fun _ => h⟩

theorem fail (cause : Cause) (position : Option Position) : Minds d₀ node s (Run.fail cause position) :=
  .of_gentle (.refl _ _)

/-- A step that leads to a halt may do to the node what it likes. -/
theorem halts {first : Run Unit} (h : Leads (Local d₀ node) s (first.exec s).2) :
    Minds d₀ node s (do first; return .halt) := by
  rcases hf : first.exec s with ⟨r, mid⟩
  rw [hf] at h
  cases r with
  | error e => exact ⟨by rw [Run.exec_bind_error hf]; exact h, by rw [Run.exec_bind_error hf]; exact nofun⟩
  | ok a => exact ⟨by rw [Run.exec_bind_ok hf]; exact h, by rw [Run.exec_bind_ok hf]; exact nofun⟩

/-- Before a step that minds the node there may be any that leave it in its place. -/
theorem bind {first : Run α} {f : α → Run Flow} (h : Leads (Gentle d₀ node) s (first.exec s).2)
    (hf : ∀ a mid, first.exec s = (.ok a, mid) → Leads (Gentle d₀ node) s mid → Minds d₀ node mid (f a)) :
    Minds d₀ node s (first >>= f) := by
  rcases hr : first.exec s with ⟨r, mid⟩
  rw [hr] at h
  cases r with
  | error e => exact .of_gentle (by rw [Run.exec_bind_error hr]; exact h)
  | ok a =>
    have hm := hf a mid hr h
    refine ⟨?_, ?_⟩
    · rw [Run.exec_bind_ok hr]; exact h.toLocal.trans hm.leads
    · rw [Run.exec_bind_ok hr]; exact fun hp => h.trans (hm.proceeds hp)

theorem document {f : Document → Run Flow} (h : Minds d₀ node s (f s.document)) :
    Minds d₀ node s (Run.document >>= f) :=
  .bind (.refl _ _) fun _ _ he _ => by cases he; exact h

theorem demand {e : Except Fault α} {f : α → Run Flow} (h : ∀ a, e = .ok a → Minds d₀ node s (f a)) :
    Minds d₀ node s (Run.demand e >>= f) :=
  .bind (by rw [Run.exec_demand]; exact .refl _ _) fun a mid he _ => by
    obtain ⟨rfl, rfl⟩ := Run.demand_ok he
    exact h a rfl

theorem find {path : String} {position : Option Position} {f : List NodeId → Run Flow}
    (h : ∀ found, s.document.matches? node path = .ok found → Minds d₀ node s (f found)) :
    Minds d₀ node s (Run.find node path position >>= f) :=
  .bind (by rw [Run.exec_find]; exact .refl _ _) fun found mid he _ => by
    obtain ⟨hm, rfl⟩ := Run.find_ok he
    exact h found hm

end Minds

/-! ## Recursion and literal members -/

theorem descend_leads {nested : Tree → NodeId → Run Unit} (hN : Obeys nested) (h : Working d₀ node s)
    {ms : List (Member Tree)} (hk : ∀ m ∈ ms, m.value.Keyed) :
    Leads (Gentle d₀ node) s ((descend nested node ms).exec s).2 := by
  induction ms generalizing s with
  | nil => exact .refl _ _
  | cons m rest ih =>
    have hrest := fun n hn => hk n (List.mem_cons_of_mem _ hn)
    rw [descend, Run.exec_bind_ok (Run.exec_document s)]
    split
    · exact ih h hrest
    · rename_i child hchild
      obtain ⟨hg, -⟩ := Option.filter_eq_some_iff.mp hchild
      have hx := h.inside (Document.below_of_get? ⟨m.key, hg⟩)
      refine .bind (hN.inside (hk m List.mem_cons_self) h hx) fun _ mid _ hl => ?_
      refine .bind (ih (h.after hl.toLocal) hrest) fun keys _ _ _ => ?_
      exact .refl _ _

/-- The change that a literal member needs leaves the node in its place. -/
theorem Working.literalChange? (h : Working d₀ node s) {m : Member Tree} (hm : m.value.Keyed) {c : Change}
    (hc : s.document.literalChange? node m = some c) : Gentle d₀ node s.document c := by
  unfold Document.literalChange? at hc
  split at hc
  · rename_i existing hg
    have hx := h.inside (Document.below_of_get? ⟨m.key, hg⟩)
    split at hc
    · obtain rfl := Option.some.inj hc
      exact hx.gentle h rfl fun t ht => hm.item ht
    · split at hc
      · cases hc
      · obtain rfl := Option.some.inj hc
        exact hx.gentle h rfl fun t ht => by rwa [List.mem_singleton.mp ht]
  · obtain rfl := Option.some.inj hc
    exact h.gentle_self rfl (fun t ht => by rwa [List.mem_singleton.mp ht]) nofun nofun

theorem Merging.mergeLiterals_leads (h : Working d₀ node s) {ms : List (Member Tree)}
    (hk : ∀ m ∈ ms, m.value.Keyed) : Leads (Gentle d₀ node) s ((mergeLiterals node ms).exec s).2 := by
  induction ms generalizing s with
  | nil => exact .refl _ _
  | cons m rest ih =>
    have hrest := fun n hn => hk n (List.mem_cons_of_mem _ hn)
    rw [mergeLiterals, Run.exec_bind_ok (Run.exec_document s)]
    cases hc : s.document.literalChange? node m with
    | none => exact ih h hrest
    | some c =>
      have hg := h.literalChange? (hk m List.mem_cons_self) hc
      refine .bind (.changed hg) fun _ mid _ hl => ?_
      exact ih (h.after hl.toLocal) hrest

/-! ## The verb `remove` -/

namespace Removal

theorem removeSelf_minds (h : Working d₀ node s) (position : Option Position) :
    Minds d₀ node s (removeSelf node position) := by
  refine .document ?_
  split
  · exact .fail _ _
  · exact .halts (.changed (h.local_self rfl nofun))

theorem removeProperty_minds (h : Working d₀ node s) (name : String) (position : Option Position) :
    Minds d₀ node s (removeProperty node name position) := by
  refine .document ?_
  split
  · exact .bind (.changed (h.gentle_self rfl nofun nofun nofun)) fun _ _ _ _ => .of_gentle (.refl _ _)
  · exact .bind (.missed _) fun _ _ _ _ => .of_gentle (.refl _ _)

theorem removeAll_minds (h : Working d₀ node s) (position : Option Position) {found : List NodeId}
    (hf : ∀ x ∈ found, x = node ∨ Inside d₀ node s x) :
    Minds d₀ node s (removeAll node position found) := by
  induction found generalizing s with
  | nil => exact .of_gentle (.refl _ _)
  | cons target rest ih =>
    rw [removeAll]
    split
    · exact removeSelf_minds h position
    · rename_i hne
      have hx := (hf target List.mem_cons_self).resolve_left hne
      refine .bind (.changed (hx.gentle h rfl fun _ e => by cases e)) fun _ mid _ hl => ?_
      exact ih (h.after hl.toLocal) fun x hx =>
        (hf x (List.mem_cons_of_mem _ hx)).imp_right fun hi => hi.after h hl.toLocal

end Removal

/-- What a path finds is the node itself or inside it. -/
theorem Working.found (h : Working d₀ node s) {path : String} {found : List NodeId}
    (hm : s.document.matches? node path = .ok found) : ∀ x ∈ found, x = node ∨ Inside d₀ node s x := by
  intro x hx
  rcases h.wellFormed.matches?_cases hm with rfl | hb
  · exact Or.inl (List.mem_singleton.mp hx)
  · exact Or.inr (h.inside (hb x hx))

/-- That a path found nothing may be noted. -/
theorem Minds.noting {c : Prop} [Decidable c] {name : String} {position : Option Position}
    {m : Run Flow} (h : Working d₀ node s)
    (hm : ∀ mid, Working d₀ node mid → s.document = mid.document → Minds d₀ node mid m) :
    Minds d₀ node s (if c then Run.warn name position >>= fun _ => m else m) := by
  split
  · exact .bind (.missed _) fun _ mid he hl => by
      cases he
      exact hm _ (h.after hl.toLocal) rfl
  · exact hm s h rfl

namespace Removal

theorem removeFound_minds (h : Working d₀ node s) (operand : Tree) :
    Minds d₀ node s (removeFound node operand) := by
  refine .demand fun attributes _ => ?_
  split
  · exact .fail _ _
  · refine .demand fun text _ => .find fun found hm => .noting h fun mid h' he => ?_
    exact removeAll_minds h' _ (h'.found (he ▸ hm))

theorem act_minds (h : Working d₀ node s) (operand : Tree) : Minds d₀ node s (act node operand) := by
  unfold act
  split
  · exact removeProperty_minds h _ _
  · exact removeSelf_minds h _
  · exact .of_gentle (.refl _ _)
  · exact removeFound_minds h operand
  · exact .fail _ _

end Removal

/-! ## The verb `replace` -/

/-- Overwriting a node inside leaves the object in its place. -/
theorem Inside.overwrite {x : NodeId} (hx : Inside d₀ node s x) (h : Working d₀ node s) {t : Tree}
    (ht : t.Keyed) (position : Option Position) :
    Leads (Gentle d₀ node) s ((Run.overwrite x t position).exec s).2 := by
  rw [Run.exec_overwrite]
  split
  · exact .refl _ _
  · exact .changed (hx.gentle h rfl fun u hu => by rwa [List.mem_singleton.mp hu])

theorem Working.overwrite (h : Working d₀ node s) {t : Tree} (ht : t.Keyed) (position : Option Position) :
    Leads (Local d₀ node) s ((Run.overwrite node t position).exec s).2 := by
  rw [Run.exec_overwrite]
  split
  · exact .refl _ _
  · exact .changed (h.local_self rfl fun u hu => by rwa [List.mem_singleton.mp hu])

namespace Replacement

theorem replaceSelf_minds (h : Working d₀ node s) {operand : Tree} (hk : operand.Keyed) :
    Minds d₀ node s (replaceSelf node operand) :=
  .halts (h.overwrite hk _)

theorem replaceAll_minds (h : Working d₀ node s) {value : Tree} (hv : value.Keyed) {found : List NodeId}
    (hf : ∀ x ∈ found, x = node ∨ Inside d₀ node s x) : Minds d₀ node s (replaceAll node value found) := by
  induction found generalizing s with
  | nil => exact .of_gentle (.refl _ _)
  | cons target rest ih =>
    rw [replaceAll]
    by_cases e : target = node
    · subst e
      simp only [if_true]
      exact .halts (h.overwrite hv _)
    · have hx := (hf target List.mem_cons_self).resolve_left e
      refine .bind (hx.overwrite h hv _) fun _ mid _ hl => ?_
      rw [if_neg e]
      exact ih (h.after hl.toLocal) fun x hx =>
        (hf x (List.mem_cons_of_mem _ hx)).imp_right fun hi => hi.after h hl.toLocal

theorem act_minds (h : Working d₀ node s) {operand : Tree} (hk : operand.Keyed) :
    Minds d₀ node s (act node operand) := by
  unfold act
  split
  · exact replaceSelf_minds h hk
  · refine .demand fun found? ht => ?_
    split
    · exact replaceSelf_minds h hk
    · rename_i target
      obtain ⟨m, hm, hv⟩ := Target.ofOperand?_value ht
      exact .find fun found hf => replaceAll_minds h (hv ▸ hk.member hm) (h.found hf)

end Replacement

/-! ## The verb `rename` -/

namespace Renaming

theorem renameNode_leads (h : Working d₀ node s) {target : NodeId}
    (ht : target = node ∨ Inside d₀ node s target) (name : String) (position : Option Position) :
    Leads (Gentle d₀ node) s ((renameNode target name position).exec s).2 := by
  rw [renameNode, Run.exec_bind_ok (Run.exec_document s)]
  split
  · refine .changed ?_
    rcases ht with rfl | hx
    · exact h.gentle_self rfl nofun nofun nofun
    · exact hx.gentle h rfl nofun
  · exact .refl _ _

theorem renamePairs_leads (h : Working d₀ node s) (pairs : List (Member Tree)) :
    Leads (Gentle d₀ node) s ((renamePairs node pairs).exec s).2 := by
  induction pairs generalizing s with
  | nil => exact .refl _ _
  | cons pair rest ih =>
    rw [renamePairs]
    split
    · exact .refl _ _
    · rename_i name _
      rw [Run.exec_bind_ok (Run.exec_document s)]
      cases hg : s.document.get? node pair.key with
      | none => exact .bind (.missed _) fun _ mid _ hl => ih (h.after hl.toLocal)
      | some target =>
        have hx := h.inside (Document.below_of_get? ⟨pair.key, hg⟩)
        exact .bind (renameNode_leads h (Or.inr hx) name pair.position) fun _ mid _ hl =>
          ih (h.after hl.toLocal)

theorem renameAll_leads (h : Working d₀ node s) (name : String) (position : Option Position)
    {found : List NodeId} (hf : ∀ x ∈ found, x = node ∨ Inside d₀ node s x) :
    Leads (Gentle d₀ node) s ((renameAll name position found).exec s).2 := by
  induction found generalizing s with
  | nil => exact .refl _ _
  | cons target rest ih =>
    refine .bind (renameNode_leads h (hf target List.mem_cons_self) name position) fun _ mid _ hl => ?_
    exact ih (h.after hl.toLocal) fun x hx =>
      (hf x (List.mem_cons_of_mem _ hx)).imp_right fun hi => hi.after h hl.toLocal

theorem act_minds (h : Working d₀ node s) (operand : Tree) : Minds d₀ node s (act node operand) := by
  unfold act
  split
  · exact .fail _ _
  · refine .demand fun found? ht => ?_
    split
    · exact .bind (renamePairs_leads h _) fun _ _ _ _ => .of_gentle (.refl _ _)
    · split
      · exact .fail _ _
      · refine .find fun found hm => .noting h fun mid h' he => ?_
        exact .bind (renameAll_leads h' _ _ (h'.found (he ▸ hm))) fun _ _ _ _ => .of_gentle (.refl _ _)

end Renaming

/-! ## The verb `merge` -/

namespace Merging

variable {nested : Tree → NodeId → Run Unit}

/-- The operand applies an object to the object itself, by a path that finds the object. -/
def OntoSelf (d : Document) (node : NodeId) (operand : Tree) : Prop :=
  d.isObject node = true ∧ ∃ target, Target.ofOperand? .merge operand = .ok (some target) ∧
    target.value.isObject = true ∧ d.matches? node target.path = .ok [node]

theorem mergeOne_inside (hN : Obeys nested) (h : Working d₀ node s) {value : Tree} (hv : value.Keyed)
    (position : Option Position) {x : NodeId} (hx : Inside d₀ node s x) :
    Leads (Gentle d₀ node) s ((mergeOne nested node value position x).exec s).2 := by
  rw [mergeOne, Run.exec_bind_ok (Run.exec_document s)]
  split
  · exact .bind (hN.inside hv h hx) fun _ _ _ _ => .refl _ _
  · split
    · exact .bind (.changed (hx.gentle h rfl fun t ht => hv.item ht)) fun _ _ _ _ => .refl _ _
    · exact .bind (hx.overwrite h hv _) fun _ _ _ _ => .refl _ _

theorem mergeAll_inside (hN : Obeys nested) (h : Working d₀ node s) {value : Tree} (hv : value.Keyed)
    (position : Option Position) {found : List NodeId} (hf : ∀ x ∈ found, Inside d₀ node s x) :
    Leads (Gentle d₀ node) s ((mergeAll nested node value position found).exec s).2 := by
  induction found generalizing s with
  | nil => exact .refl _ _
  | cons target rest ih =>
    refine .bind (mergeOne_inside hN h hv position (hf target List.mem_cons_self)) fun _ mid _ hl => ?_
    refine .bind (ih (h.after hl.toLocal) fun x hx => ?_) fun _ _ _ _ => .refl _ _
    exact (hf x (List.mem_cons_of_mem _ hx)).after h hl.toLocal

/-- Unless both are objects, merging a value into the object itself leaves it in its place or halts. -/
theorem mergeAll_self (h : Working d₀ node s) {value : Tree} (hv : value.Keyed) (position : Option Position)
    (hno : ¬ (s.document.isObject node && value.isObject) = true) :
    Minds d₀ node s (mergeAll nested node value position [node]) := by
  unfold mergeAll mergeOne
  rw [bind_assoc]
  refine .document ?_
  rw [if_neg hno]
  split
  · rw [bind_assoc]
    exact .bind (.changed (h.gentle_self rfl (fun t ht => hv.item ht) nofun nofun)) fun _ _ _ _ =>
      .of_gentle (.refl _ _)
  · rw [bind_assoc, if_pos rfl]
    exact .halts (h.overwrite hv position)

/-- A merge minds its object, unless it is one of an object onto the object itself. -/
theorem act_minds (hN : Obeys nested) (h : Working d₀ node s) {operand : Tree} (hk : operand.Keyed)
    (hno : ¬ OntoSelf s.document node operand) : Minds d₀ node s (act nested node operand) := by
  unfold act
  split
  · exact .halts (h.overwrite hk _)
  · refine .demand fun found? ht => ?_
    split
    · have hplain := fun m hm => Verb.ofKey?_of_literal (Target.ofOperand?_none ht m hm)
      exact .bind (hN.itselfPlain hk h hplain) fun _ _ _ _ => .of_gentle (.refl _ _)
    · rename_i target
      obtain ⟨m, hm, hv⟩ := Target.ofOperand?_value ht
      have hvk : target.value.Keyed := hv ▸ hk.member hm
      refine .find fun found hf => ?_
      rcases h.wellFormed.matches?_cases hf with rfl | hb
      · refine mergeAll_self h hvk _ fun hboth => hno ?_
        rw [Bool.and_eq_true] at hboth
        exact ⟨hboth.1, target, ht, hboth.2, hf⟩
      · exact .of_gentle (mergeAll_inside hN h hvk _ fun x hx => h.inside (hb x hx))

/-- A merge of an object onto the object itself is the nested work on it, whatever that comes to. -/
theorem OntoSelf.exec_act (nested : Tree → NodeId → Run Unit) {operand : Tree}
    (ho : OntoSelf s.document node operand) :
    ∃ value : Tree, (∃ m ∈ operand.members, m.value = value) ∧
      (act nested node operand).exec s = (do nested value node; return .proceed : Run Flow).exec s := by
  obtain ⟨hobj, target, ht, hv, hf⟩ := ho
  obtain ⟨m, hm, hmv⟩ := Target.ofOperand?_value ht
  refine ⟨target.value, ⟨m, hm, hmv⟩, ?_⟩
  have hop : operand.isObject = true := by
    unfold Tree.members at hm
    unfold Tree.isObject
    cases hc : operand.content <;> simp_all [Content.members, Content.isObject]
  have hfind : (Run.find node target.path target.pathPosition).exec s = (.ok [node], s) := by
    rw [Run.exec_find, hf]
  unfold act
  simp only [hop, Bool.not_true, Bool.false_eq_true, if_false]
  rw [ht, Run.exec_bind_ok (Run.exec_demand (.ok (some target)) s)]
  simp only
  rw [Run.exec_bind_ok hfind]
  unfold mergeAll mergeOne
  rw [bind_assoc, Run.exec_bind_ok (Run.exec_document s)]
  simp only [hobj, hv, Bool.and_self, if_true]
  rcases hr : (nested target.value node).exec s with ⟨r, mid⟩
  cases r with
  | error e => rw [bind_assoc, Run.exec_bind_error hr, Run.exec_bind_error hr]
  | ok u =>
    rw [bind_assoc, Run.exec_bind_ok hr, Run.exec_bind_ok hr]
    rfl

theorem act_leads (hN : Obeys nested) (h : Working d₀ node s) {operand : Tree} (hk : operand.Keyed) :
    Leads (Local d₀ node) s ((act nested node operand).exec s).2 := by
  by_cases ho : OntoSelf s.document node operand
  · obtain ⟨value, ⟨m, hm, rfl⟩, he⟩ := ho.exec_act nested
    rw [he]
    exact .bind (hN.itself (hk.member hm) h) fun _ _ _ _ => .refl _ _
  · exact (act_minds hN h hk ho).leads

/-- A merge of an object onto the object itself never halts. -/
theorem OntoSelf.proceeds {operand : Tree} (ho : OntoSelf s.document node operand) {flow : Flow}
    (he : (act nested node operand).exec s = (.ok flow, s')) : flow = .proceed := by
  obtain ⟨value, -, hact⟩ := ho.exec_act nested
  rw [hact] at he
  obtain ⟨-, mid, -, hp⟩ := Run.bind_ok he
  exact (Run.pure_ok hp).1

end Merging

end Reshape
