/-
  Reshape.Proofs.Transform.Chaining — the work as a whole keeps to its object.

  The stages keep to what is under the object, whatever they are given and however they end
  (`Stage.run_leads`), and so does the chain of all stages. By induction on the depth of
  nesting, the work on nested transforms is as the stages rely on it to be
  (`applyWithin_obeys`), so the same is true of the whole (`applyTransform_obeys`).
-/

import Reshape.Proofs.Transform.Acting
import Reshape.Proofs.Transform.Depth

namespace Reshape

open Document (Local Gentle)

variable {d₀ : Document} {node : NodeId} {s s' : Session} {nested : Tree → NodeId → Run Unit} {t : Tree}

/-! ## Verbs -/

theorem Verb.act_leads (hN : Obeys nested) (h : Working d₀ node s) (verb : Verb) {operand : Tree}
    (hk : operand.Keyed) : Leads (Local d₀ node) s ((verb.act nested node operand).exec s).2 := by
  cases verb with
  | remove => exact (Removal.act_minds h operand).leads
  | replace => exact (Replacement.act_minds h hk).leads
  | rename => exact (Renaming.act_minds h operand).leads
  | merge => exact Merging.act_leads hN h hk

/-- A verb minds its object, unless it merges an object onto the object itself. -/
theorem Verb.act_minds (hN : Obeys nested) (h : Working d₀ node s) (verb : Verb) {operand : Tree}
    (hk : operand.Keyed) (hno : ¬ (verb = .merge ∧ Merging.OntoSelf s.document node operand)) :
    Minds d₀ node s (verb.act nested node operand) := by
  cases verb with
  | remove => exact Removal.act_minds h operand
  | replace => exact Replacement.act_minds h hk
  | rename => exact Renaming.act_minds h operand
  | merge => exact Merging.act_minds hN h hk fun ho => hno ⟨rfl, ho⟩

theorem Verb.actAll_leads (hN : Obeys nested) (h : Working d₀ node s) (verb : Verb)
    {operands : List Tree} (hk : ∀ o ∈ operands, o.Keyed) :
    Leads (Local d₀ node) s ((verb.actAll nested node operands).exec s).2 := by
  induction operands generalizing s with
  | nil => exact .refl _ _
  | cons operand rest ih =>
    rw [actAll]
    refine .bind (act_leads hN h verb (hk operand List.mem_cons_self)) fun flow mid _ hl => ?_
    cases flow with
    | halt => exact .refl _ _
    | proceed => exact ih (h.after hl) fun o ho => hk o (List.mem_cons_of_mem _ ho)

/-! ## Stages -/

/-- A stage that is no verb, or whose verb the transform does not state, leaves the object in its place. -/
theorem Stage.run_gentle (hN : Obeys nested) (h : Working d₀ node s) (ht : t.Keyed) (stage : Stage)
    (hv : ∀ v, stage = .verb v → v.operands t = []) :
    Leads (Gentle d₀ node) s ((stage.run nested t node).exec s).2 := by
  cases stage with
  | validation =>
    refine .bind (by rw [Run.exec_demand]; exact .refl _ _) fun _ _ _ _ => .refl _ _
  | recursion =>
    have hk : ∀ m ∈ nestedTransforms t.members, m.value.Keyed := fun m hm =>
      ht.member (List.mem_filter.mp hm).1
    exact .bind (descend_leads hN h hk) fun _ _ _ _ => .refl _ _
  | verb v =>
    rw [Stage.run, Verb.apply_eq, hv v rfl]
    exact .refl _ _
  | literals =>
    have hk : ∀ m ∈ t.members.filter fun m => !isDirective m.key, m.value.Keyed :=
      fun m hm => ht.member (List.mem_filter.mp hm).1
    exact .bind (Merging.mergeLiterals_leads h hk) fun _ _ _ _ => .refl _ _

/-- What a stage changes is within reach of its object, also when it fails. -/
theorem Stage.run_leads (hN : Obeys nested) (h : Working d₀ node s) (ht : t.Keyed) (stage : Stage) :
    Leads (Local d₀ node) s ((stage.run nested t node).exec s).2 := by
  cases stage with
  | verb v =>
    rw [Stage.run, Verb.apply_eq]
    exact .bind (Verb.actAll_leads hN h v fun o ho => Verb.operands_keyed ht ho) fun _ _ _ _ => .refl _ _
  | _ => exact (Stage.run_gentle hN h ht _ fun v hv => by cases hv).toLocal

/-! ## The chain -/

theorem runStages_leads (hN : Obeys nested) (h : Working d₀ node s) (ht : t.Keyed) (stages : List Stage) :
    Leads (Local d₀ node) s ((runStages nested stages t node).exec s).2 := by
  induction stages generalizing s t with
  | nil => exact .refl _ _
  | cons stage rest ih =>
    refine .bind (Stage.run_leads hN h ht stage) fun outcome mid _ hl => ?_
    obtain ⟨flow, done⟩ := outcome
    cases flow with
    | halt => exact .refl _ _
    | proceed => exact ih (h.after hl) (ht.without done)

theorem runStages_gentle (hN : Obeys nested) (h : Working d₀ node s) (ht : t.Keyed) (stages : List Stage)
    (hv : ∀ m ∈ t.members, Verb.ofKey? m.key = none) :
    Leads (Gentle d₀ node) s ((runStages nested stages t node).exec s).2 := by
  induction stages generalizing s t with
  | nil => exact .refl _ _
  | cons stage rest ih =>
    have hstage := Stage.run_gentle hN h ht stage fun _ _ => Verb.operands_eq_nil hv
    refine .bind hstage fun outcome mid _ hl => ?_
    obtain ⟨flow, done⟩ := outcome
    cases flow with
    | halt => exact .refl _ _
    | proceed =>
      exact ih (h.after hl.toLocal) (ht.without done) fun m hm =>
        hv m ((Tree.without_sublist t done).subset hm)

/-- Work on nested transforms is as the stages rely on it to be, however deep it goes. -/
theorem applyWithin_obeys (depth : Nat) : Obeys (applyWithin depth) := by
  induction depth with
  | zero => exact ⟨fun _ _ _ => .refl _ _, fun _ _ _ _ => .refl _ _⟩
  | succ depth ih =>
    exact ⟨fun h hn ht => runStages_leads ih (.start h hn) ht Stage.all,
      fun h hn ht hv => runStages_gentle ih (.start h hn) ht Stage.all hv⟩

theorem applyTransform_obeys : Obeys applyTransform :=
  ⟨fun {t} _ _ h hn ht => (applyWithin_obeys (t.height + 1)).keeps h hn ht,
    fun {t} _ _ h hn ht hv => (applyWithin_obeys (t.height + 1)).plain h hn ht hv⟩

end Reshape
