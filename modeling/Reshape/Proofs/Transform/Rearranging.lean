/-
  Reshape.Proofs.Transform.Rearranging — where directives stand among the members.

  The members of a transform are gone through again and again: by the check of the directives,
  by the recursion, by each verb that looks for its operand, and by the last stage; and the
  recursion takes the keys away that it is done with. Each of these looks at the directives or
  at the literal members, never at both. So directives may stand in any order and anywhere
  between the literal members, whose own order counts, unless one of two things goes by their
  order: the check names the first directive that it refuses, and a verb that is named twice
  acts with the first operand (`Tree.StatesVerbs` is that neither can happen).

  - `Tree.Rearranged`: the literal members are the same in the same order, and the directives are
    the same in any order. Taking keys away keeps this (`Tree.Rearranged.without`).
  - `Stage.run_rearranged`: a stage does the same; hence so do all in a row, whatever each has done.
  - `applyTransform_rearranged`: so does the whole work, from whatever session and on whatever node.
-/

import Mathlib.Data.List.Basic
import Reshape.Proofs.Transform.Depth
import Reshape.Proofs.Transform.Precedence
import Reshape.Proofs.Transform.Running

namespace Reshape

variable {t u : Tree}

/-! ## Members and their places -/

namespace Tree

/-- The same literal members in the same order, and the same directives in any order and between any of them. -/
structure Rearranged (t u : Tree) : Prop where
  literals : (t.members.filter fun m => !isDirective m.key) = u.members.filter fun m => !isDirective m.key
  directives : (t.members.filter fun m => isDirective m.key).Perm (u.members.filter fun m => isDirective m.key)

structure StatesVerbs (t : Tree) : Prop where
  named : ∀ m ∈ t.members, isDirective m.key = true → ∃ v, Verb.ofKey? m.key = some v
  once : ∀ v : Verb, (t.members.filter v.names).length ≤ 1

namespace Rearranged

variable (h : t.Rearranged u)
include h

theorem mem_iff {m : Member Tree} : m ∈ t.members ↔ m ∈ u.members := by
  by_cases hm : isDirective m.key = true
  · have hd := h.directives.mem_iff (a := m)
    simpa [List.mem_filter, hm] using hd
  · have hl := congrArg (m ∈ ·) h.literals
    simpa [List.mem_filter, hm] using hl

/-- Taking the members of some keys away leaves the others as they were to each other. -/
theorem without (ht : t.Keyed) (hu : u.Keyed) (keys : List String) : (t.without keys).Rearranged (u.without keys) where
  literals := by
    rw [ht.members_without, hu.members_without, List.filter_comm, List.filter_comm _ _ u.members, h.literals]
  directives := by
    rw [ht.members_without, hu.members_without, List.filter_comm, List.filter_comm _ _ u.members]
    exact h.directives.filter _

/-- The members that name a verb are directives, so they are the same in some order. -/
theorem names_perm (v : Verb) : (t.members.filter v.names).Perm (u.members.filter v.names) := by
  have among : ∀ ms : List (Member Tree),
      ms.filter v.names = (ms.filter fun m => isDirective m.key).filter v.names := by
    intro ms
    rw [List.filter_filter]
    refine List.filter_congr fun m _ => ?_
    cases hd : directiveName? m.key with
    | none => simp [Verb.names, Verb.ofKey?_of_literal hd]
    | some name => simp [isDirective, hd]
  rw [among, among u.members]
  exact h.directives.filter _

/-- Of the one member that names a verb it does not matter where it stands. -/
theorem operandOf?_eq (ht : t.StatesVerbs) (v : Verb) : operandOf? v t.members = operandOf? v u.members := by
  have hperm := h.names_perm v
  have hsame : t.members.filter v.names = u.members.filter v.names := by
    match hms : t.members.filter v.names, ht.once v with
    | [], _ => exact (List.perm_nil.mp (hms ▸ hperm).symm).symm
    | [m], _ => exact (List.perm_singleton.mp (hms ▸ hperm).symm).symm
  rw [operandOf?_eq_find?, operandOf?_eq_find?, ← List.head?_filter, ← List.head?_filter, hsame]

theorem nestedTransforms_eq : nestedTransforms t.members = nestedTransforms u.members := by
  have among : ∀ ms : List (Member Tree), nestedTransforms ms =
      (ms.filter fun m => !isDirective m.key).filter fun m => m.value.isObject := by
    intro ms
    rw [nestedTransforms, List.filter_filter]
    exact List.filter_congr fun m _ => Bool.and_comm _ _
  rw [among, among u.members, h.literals]

end Rearranged

namespace StatesVerbs

theorem without (h : t.StatesVerbs) (keys : List String) : (t.without keys).StatesVerbs where
  named m hm := h.named m ((t.without_sublist keys).subset hm)
  once v := ((t.without_sublist keys).filter v.names).length_le.trans (h.once v)

theorem checkVerbs_eq (h : t.StatesVerbs) : checkVerbs Verb.all t.members = .ok () := by
  refine (checkVerbs_iff Verb.all).mpr fun m hm hd => ?_
  obtain ⟨v, hv⟩ := h.named m hm hd
  exact ⟨v, v.mem_all, hv⟩

theorem rearranged (h : t.StatesVerbs) (hr : t.Rearranged u) : u.StatesVerbs where
  named m hm := h.named m (hr.mem_iff.mpr hm)
  once v := (hr.names_perm v).length_eq ▸ h.once v

end StatesVerbs

end Tree

/-! ## The stages and the chain -/

variable {nested : Tree → NodeId → Run Unit}

/-- A stage does the same with rearranged members. -/
theorem Stage.run_rearranged (h : t.Rearranged u) (ht : t.StatesVerbs) (stage : Stage) (node : NodeId) :
    stage.run nested t node = stage.run nested u node := by
  cases stage with
  | validation => rw [run, run, ht.checkVerbs_eq, (ht.rearranged h).checkVerbs_eq]
  | recursion => rw [run, run, h.nestedTransforms_eq]
  | verb v => rw [run, run, Verb.apply, Verb.apply, h.operandOf?_eq ht]
  | literals => rw [run, run, h.literals]

/-- Stages in a row do the same, whichever keys each of them is done with. -/
theorem runStages_rearranged (htk : t.Keyed) (huk : u.Keyed) (h : t.Rearranged u) (ht : t.StatesVerbs)
    (stages : List Stage) (node : NodeId) :
    runStages nested stages t node = runStages nested stages u node := by
  induction stages generalizing t u with
  | nil => rfl
  | cons stage rest ih =>
    have hrest : ∀ done, runStages nested rest (t.without done) node = runStages nested rest (u.without done) node :=
      fun done => ih (htk.without done) (huk.without done) (h.without htk huk done) (ht.without done)
    simp only [runStages, Stage.run_rearranged h ht stage node, hrest]

/-- Transforms that state each verb once at most, and differ in nothing but where their directives stand, come to
    the same verdict, at the same position if it is a fault, and make the same changes and warnings in the same order. -/
theorem applyTransform_rearranged (htk : t.Keyed) (huk : u.Keyed) (h : t.Rearranged u) (ht : t.StatesVerbs)
    (node : NodeId) (s : Session) : (applyTransform t node).exec s = (applyTransform u node).exec s := by
  rw [applyTransform_eq, applyTransform_eq, runStages_rearranged htk huk h ht]

def directivesAround : Tree :=
  .ofValue (.object [("@jdt.rename", .object [("a", .ofString "b")]), ("a", .object [("y", .scalar .null)]),
    ("c", .array []), ("@JDT.Remove", .ofString "z")])

def directivesBehind : Tree :=
  .ofValue (.object [("a", .object [("y", .scalar .null)]), ("c", .array []), ("@JDT.Remove", .ofString "z"),
    ("@jdt.rename", .object [("a", .ofString "b")])])

def bothKeys : Document :=
  .ofValue (.object [("a", .object [("x", .scalar .null)]), ("c", .array [.scalar .null])])

/-- The directives are moved over the literal members and over one another, and all else is as before. -/
theorem directives_moved_behind :
    directivesAround.Keyed ∧ directivesBehind.Keyed ∧ directivesAround.Rearranged directivesBehind ∧
      directivesAround.StatesVerbs ∧
      (applyTransform directivesAround bothKeys.root).exec ⟨bothKeys, []⟩ =
        (applyTransform directivesBehind bothKeys.root).exec ⟨bothKeys, []⟩ := by
  have hfirst : directivesAround.Keyed :=
    Tree.keyed_ofValue _ (by simp [Value.Keyed, Value.MembersKeyed, Value.ItemsKeyed, Value.ofString])
  have hsecond : directivesBehind.Keyed :=
    Tree.keyed_ofValue _ (by simp [Value.Keyed, Value.MembersKeyed, Value.ItemsKeyed, Value.ofString])
  have hmoved : directivesAround.Rearranged directivesBehind := ⟨by rfl, .swap _ _ []⟩
  have hnames : ∀ m ∈ directivesAround.members, isDirective m.key = true →
      Verb.ofKey? m.key = some .rename ∨ Verb.ofKey? m.key = some .remove := by
    decide +kernel
  have hstated : directivesAround.StatesVerbs :=
    ⟨fun m hm hd => (hnames m hm hd).elim (fun h => ⟨_, h⟩) fun h => ⟨_, h⟩, fun v => by cases v <;> decide +kernel⟩
  exact ⟨hfirst, hsecond, hmoved, hstated,
    applyTransform_rearranged hfirst hsecond hmoved hstated bothKeys.root ⟨bothKeys, []⟩⟩

end Reshape
