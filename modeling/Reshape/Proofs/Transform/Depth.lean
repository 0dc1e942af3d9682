/-
  Reshape.Proofs.Transform.Depth — the bound on the depth of nested work is never met.

  Work on a transform asks for nested work on parts of the transform only, and a part is
  less high than the whole. So work with any bound above the transform's height is the
  same, and applying a transform goes through the stages with applying itself for the
  nested work (`applyTransform_eq`).
-/

import Reshape.Proofs.Transform.Operands

namespace Reshape

/-- Two ways to do nested work agree on trees that are less high than `n`. -/
def AgreeBelow (n : Nat) (nested nested' : Tree → NodeId → Run Unit) : Prop :=
  ∀ u : Tree, u.height < n → nested u = nested' u

variable {n : Nat} {nested nested' : Tree → NodeId → Run Unit} (h : AgreeBelow n nested nested')
include h

theorem descend_agree (node : NodeId) {ms : List (Member Tree)} (hm : ∀ m ∈ ms, m.value.height < n) :
    descend nested node ms = descend nested' node ms := by
  induction ms with
  | nil => rfl
  | cons m rest ih =>
    rw [descend, descend, ih fun k hk => hm k (List.mem_cons_of_mem _ hk), h m.value (hm m List.mem_cons_self)]

theorem mergeAll_agree (node : NodeId) {value : Tree} (hv : value.height < n)
    (position : Option Position) (found : List NodeId) :
    Merging.mergeAll nested node value position found =
      Merging.mergeAll nested' node value position found := by
  induction found with
  | nil => rfl
  | cons target rest ih =>
    have hone : Merging.mergeOne nested node value position target =
        Merging.mergeOne nested' node value position target := by
      simp only [Merging.mergeOne, h value hv]
    rw [Merging.mergeAll, Merging.mergeAll, ih, hone]

/-- The verb `merge` asks for nested work on its operand or on the value that goes with a path. -/
theorem mergingAct_agree (node : NodeId) {operand : Tree} (ho : operand.height < n) :
    Merging.act nested node operand = Merging.act nested' node operand := by
  unfold Merging.act
  split
  · rfl
  · cases ht : Target.ofOperand? .merge operand with
    | error f => rfl
    | ok found? =>
      cases found? with
      | none => simp only [Run.demand, pure_bind, h operand ho]
      | some target =>
        obtain ⟨m, hm, hv⟩ := Target.ofOperand?_value ht
        have hlt := Tree.height_lt_of_mem_parts (Tree.mem_parts_of_mem_members hm)
        have hvn : target.value.height < n := by rw [← hv]; omega
        simp only [Run.demand, pure_bind, mergeAll_agree h node hvn]

theorem act_agree (verb : Verb) (node : NodeId) {operand : Tree} (ho : operand.height < n) :
    verb.act nested node operand = verb.act nested' node operand := by
  cases verb with
  | merge => exact mergingAct_agree h node ho
  | _ => rfl

theorem actAll_agree (verb : Verb) (node : NodeId) {operands : List Tree}
    (ho : ∀ t ∈ operands, t.height < n) :
    verb.actAll nested node operands = verb.actAll nested' node operands := by
  induction operands with
  | nil => rfl
  | cons t rest ih =>
    rw [Verb.actAll, Verb.actAll, act_agree h verb node (ho t List.mem_cons_self),
      ih fun u hu => ho u (List.mem_cons_of_mem _ hu)]

theorem apply_agree (verb : Verb) {t : Tree} (hm : ∀ m ∈ t.members, m.value.height < n) (node : NodeId) :
    verb.apply nested t node = verb.apply nested' t node := by
  rw [Verb.apply_eq, Verb.apply_eq]
  refine actAll_agree h verb node fun operand ho => ?_
  obtain ⟨m, hmem, rfl | hp⟩ := Verb.mem_operands ho
  · exact hm m hmem
  · have := hm m hmem
    have := Tree.height_lt_of_mem_parts hp
    omega

theorem stage_agree (stage : Stage) {t : Tree} (hm : ∀ m ∈ t.members, m.value.height < n) (node : NodeId) :
    stage.run nested t node = stage.run nested' t node := by
  cases stage with
  | recursion =>
    have hnested : ∀ m ∈ nestedTransforms t.members, m.value.height < n := fun m hmem =>
      hm m (List.mem_filter.mp hmem).1
    simp only [Stage.run, descend_agree h node hnested]
  | verb v => simp only [Stage.run, apply_agree h v hm]
  | _ => rfl

theorem runStages_agree (stages : List Stage) {t : Tree} (hm : ∀ m ∈ t.members, m.value.height < n)
    (node : NodeId) : runStages nested stages t node = runStages nested' stages t node := by
  induction stages generalizing t with
  | nil => rfl
  | cons stage rest ih =>
    have hrest : ∀ done, runStages nested rest (t.without done) node =
        runStages nested' rest (t.without done) node :=
      fun done => ih fun m hmem => hm m ((Tree.without_sublist t done).subset hmem)
    simp only [runStages, stage_agree h stage hm node, hrest]

omit h

/-- Beyond the height of the transform, the bound makes no difference. -/
theorem applyWithin_stable {depth depth' : Nat} {t : Tree} (hd : t.height < depth)
    (hd' : t.height < depth') : applyWithin depth t = applyWithin depth' t := by
  induction depth generalizing depth' t with
  | zero => omega
  | succ k ih =>
    cases depth' with
    | zero => omega
    | succ k' =>
      funext node
      have agree : AgreeBelow t.height (applyWithin k) (applyWithin k') := fun u hu =>
        ih (by omega) (by omega)
      exact runStages_agree agree Stage.all
        (fun m hm => Tree.height_lt_of_mem_parts (Tree.mem_parts_of_mem_members hm)) node

/-- Applying a transform goes through the stages, and applies nested transforms in the same way. -/
theorem applyTransform_eq (t : Tree) (node : NodeId) :
    applyTransform t node = runStages applyTransform Stage.all t node := by
  have agree : AgreeBelow t.height (applyWithin t.height) applyTransform := fun u hu => by
    funext node
    exact congrFun (applyWithin_stable hu (Nat.lt_succ_self _)) node
  exact runStages_agree agree Stage.all
    (fun m hm => Tree.height_lt_of_mem_parts (Tree.mem_parts_of_mem_members hm)) node

end Reshape
