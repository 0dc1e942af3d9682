/-
  Reshape.Proofs.Transform.Passing — stages that have nothing to do, and the stage that halts.

  Most transforms give work to few of the stages. A stage that has nothing to do in a transform
  goes on at once, with all members left (`Stage.Passes`), so it may be left out of the chain. What
  is left of a chain for a transform whose only member names a verb is that verb (`runStages_only`).

  - `haltingStage?` goes through the stages as the chain does (`runStages_eq`), and tells in
    addition which of them has ended the work by halting, which the chain keeps to itself.
  - `Tree.StatesOnly`: the only member names the verb. Then the work is halted by that verb or by
    no stage (`haltingStage?_only`).
-/

import Reshape.Proofs.Transform.Depth
import Reshape.Proofs.Transform.Precedence

namespace Reshape

variable {nested : Tree → NodeId → Run Unit} {node : NodeId} {t operand : Tree} {verb : Verb}

/-! ## The stage that halts -/

/-- Goes through the stages one after the other, and tells which of them has halted, if one has. -/
def haltingStage? (nested : Tree → NodeId → Run Unit) : List Stage → Tree → NodeId → Run (Option Stage)
  | [], _, _ => return none
  | stage :: rest, transform, node => do
    let (flow, done) ← stage.run nested transform node
    match flow with
    | .halt => return some stage
    | .proceed => haltingStage? nested rest (transform.without done) node

/-- The chain does the same, and does not tell. -/
theorem runStages_eq (nested : Tree → NodeId → Run Unit) (stages : List Stage) (t : Tree) (node : NodeId) :
    runStages nested stages t node = (haltingStage? nested stages t node >>= fun _ => pure ()) := by
  induction stages generalizing t with
  | nil => rfl
  | cons stage rest ih =>
    rw [runStages, haltingStage?, bind_assoc]
    refine congrArg _ (funext fun outcome => ?_)
    obtain ⟨flow, done⟩ := outcome
    cases flow with
    | halt => rfl
    | proceed => exact ih _

/-- Applying a transform is to go through all stages, whichever of them halts. -/
theorem applyTransform_eq_haltingStage? (t : Tree) (node : NodeId) :
    applyTransform t node = (haltingStage? applyTransform Stage.all t node >>= fun _ => pure ()) := by
  rw [applyTransform_eq, runStages_eq]

/-! ## Stages that have nothing to do -/

/-- The stage goes on at once, and is done with no key. -/
def Stage.Passes (stage : Stage) (nested : Tree → NodeId → Run Unit) (t : Tree) (node : NodeId) : Prop :=
  stage.run nested t node = pure (.proceed, [])

namespace Stage

theorem passes_validation (h : checkVerbs Verb.all t.members = .ok ()) :
    Stage.validation.Passes nested t node := by
  rw [Passes, run, h]
  rfl

theorem passes_recursion (h : nestedTransforms t.members = []) : Stage.recursion.Passes nested t node := by
  rw [Passes, run, h]
  rfl

theorem passes_verb (h : verb.operands t = []) : (Stage.verb verb).Passes nested t node := by
  rw [Passes, run, Verb.apply_eq, h]
  rfl

theorem passes_literals (h : ∀ m ∈ t.members, isDirective m.key = true) :
    Stage.literals.Passes nested t node := by
  have hnone : (t.members.filter fun m => !isDirective m.key) = [] :=
    List.filter_eq_nil_iff.mpr fun m hm => by simp [h m hm]
  rw [Passes, run, hnone]
  rfl

end Stage

/-- A stage that passes leaves the work to the stages after it. -/
theorem haltingStage?_pass {stage : Stage} (h : stage.Passes nested t node) (rest : List Stage) :
    haltingStage? nested (stage :: rest) t node = haltingStage? nested rest t node := by
  rw [haltingStage?, h, pure_bind]
  simp only [Tree.without_nil]

theorem runStages_pass {stage : Stage} (h : stage.Passes nested t node) (rest : List Stage) :
    runStages nested (stage :: rest) t node = runStages nested rest t node := by
  rw [runStages_eq, runStages_eq, haltingStage?_pass h]

/-- Verbs that a transform does not state are passed. -/
theorem haltingStage?_pass_verbs {verbs : List Verb} (h : ∀ v ∈ verbs, v.operands t = []) (rest : List Stage) :
    haltingStage? nested (verbs.map .verb ++ rest) t node = haltingStage? nested rest t node := by
  induction verbs with
  | nil => rfl
  | cons v more ih =>
    rw [List.map_cons, List.cons_append, haltingStage?_pass (Stage.passes_verb (h v List.mem_cons_self))]
    exact ih fun u hu => h u (List.mem_cons_of_mem _ hu)

theorem runStages_pass_verbs {verbs : List Verb} (h : ∀ v ∈ verbs, v.operands t = []) (rest : List Stage) :
    runStages nested (verbs.map .verb ++ rest) t node = runStages nested rest t node := by
  rw [runStages_eq, runStages_eq, haltingStage?_pass_verbs h]

/-! ## A transform that states one verb -/

def Tree.StatesOnly (t : Tree) (verb : Verb) (operand : Tree) : Prop :=
  ∃ key position, t.members = [⟨key, position, operand⟩] ∧ Verb.ofKey? key = some verb

namespace Tree.StatesOnly

variable (h : t.StatesOnly verb operand)
include h

theorem names {m : Member Tree} (hm : m ∈ t.members) : Verb.ofKey? m.key = some verb ∧ m.value = operand := by
  obtain ⟨key, position, hms, hkey⟩ := h
  rw [hms, List.mem_singleton] at hm
  exact hm ▸ ⟨hkey, rfl⟩

theorem isDirective {m : Member Tree} (hm : m ∈ t.members) : Reshape.isDirective m.key = true := by
  cases hd : directiveName? m.key with
  | none => cases (Verb.ofKey?_of_literal hd).symm.trans (h.names hm).1
  | some name => simp [Reshape.isDirective, hd]

theorem checkVerbs_eq : checkVerbs Verb.all t.members = .ok () :=
  (checkVerbs_iff Verb.all).mpr fun _ hm _ => ⟨verb, verb.mem_all, (h.names hm).1⟩

theorem nestedTransforms_eq : nestedTransforms t.members = [] :=
  List.filter_eq_nil_iff.mpr fun m hm => by simp [h.isDirective hm]

theorem operandOf?_eq (v : Verb) : operandOf? v t.members = if v = verb then some operand else none := by
  obtain ⟨key, position, hms, hkey⟩ := h
  rw [hms, operandOf?, hkey]
  simp only [Option.some.injEq, eq_comm, operandOf?]

theorem operands_of_ne {v : Verb} (hv : v ≠ verb) : v.operands t = [] := by
  rw [Verb.operands, h.operandOf?_eq, if_neg hv]

/-- An operand that is no array is the only one. -/
theorem operands_eq_singleton (ho : operand.isArray = false) : verb.operands t = [operand] := by
  rw [Verb.operands, h.operandOf?_eq, if_pos rfl]
  obtain ⟨position, content⟩ := operand
  cases content with
  | array items => cases ho
  | _ => rfl

/-- An array is a row of operands. -/
theorem operands_eq_items (ho : operand.isArray = true) : verb.operands t = operand.items := by
  rw [Verb.operands, h.operandOf?_eq, if_pos rfl]
  obtain ⟨position, content⟩ := operand
  cases content with
  | array items => rfl
  | _ => cases ho

end Tree.StatesOnly

/-- Of a row of different verbs, the one that the transform states acts, and the others are passed. -/
theorem haltingStage?_verbs (h : t.StatesOnly verb operand) {verbs : List Verb} (hn : verbs.Nodup) (hv : verb ∈ verbs)
    (rest : List Stage) : haltingStage? nested (verbs.map .verb ++ rest) t node =
      (do
        match ← verb.actAll nested node (verb.operands t) with
        | .halt => return some (.verb verb)
        | .proceed => haltingStage? nested rest t node) := by
  induction verbs with
  | nil => cases hv
  | cons v more ih =>
    obtain ⟨hnot, hmore⟩ := List.nodup_cons.mp hn
    rw [List.map_cons, List.cons_append]
    by_cases e : v = verb
    · subst e
      have hothers : ∀ u ∈ more, u.operands t = [] := fun u hu =>
        h.operands_of_ne fun e => hnot (e ▸ hu)
      rw [haltingStage?, Stage.run, Verb.apply_eq]
      simp only [bind_assoc, pure_bind, Tree.without_nil, haltingStage?_pass_verbs hothers]
    · rw [haltingStage?_pass (Stage.passes_verb (h.operands_of_ne e))]
      exact ih hmore ((List.mem_cons.mp hv).resolve_left (Ne.symm e))

/-- The work on a transform that states one verb is halted by this verb, or by no stage. -/
theorem haltingStage?_only (h : t.StatesOnly verb operand) :
    haltingStage? nested Stage.all t node =
      (do
        match ← verb.actAll nested node (verb.operands t) with
        | .halt => return some (.verb verb)
        | .proceed => return none) := by
  have hall : Stage.all = .validation :: .recursion :: (Verb.all.map .verb ++ [.literals]) := rfl
  have hend : haltingStage? nested [.literals] t node = pure none := by
    rw [haltingStage?_pass (Stage.passes_literals fun _ hm => h.isDirective hm)]
    rfl
  rw [hall, haltingStage?_pass (Stage.passes_validation h.checkVerbs_eq),
    haltingStage?_pass (Stage.passes_recursion h.nestedTransforms_eq),
    haltingStage?_verbs h (by decide) verb.mem_all, hend]

/-- The work on a transform that states one verb is what the verb does with its operands. -/
theorem runStages_only (h : t.StatesOnly verb operand) :
    runStages nested Stage.all t node =
      (verb.actAll nested node (verb.operands t) >>= fun _ => pure ()) := by
  rw [runStages_eq, haltingStage?_only h, bind_assoc]
  refine congrArg _ (funext fun flow => ?_)
  cases flow <;> rfl

theorem applyTransform_only (h : t.StatesOnly verb operand) :
    applyTransform t node = (verb.actAll applyTransform node (verb.operands t) >>= fun _ => pure ()) := by
  rw [applyTransform_eq, runStages_only h]

end Reshape
