/-
  Reshape.Proofs.Transform.Operands — where what a verb acts with comes from.

  Whatever a verb is given is a part of the transform that states it: its operand is a
  member's value, or an item of one (`Verb.mem_operands`), and the value that goes with a
  path is a member's value of the operand (`Target.ofOperand?_value`). An operand object
  that names no attribute has no directive key at all, so as a transform of its own it
  states no verb (`Target.ofOperand?_none`).

  - `Verb.apply_eq`: one operand is the same as an array of one.
-/

import Reshape.Proofs.Json.Keyed
import Reshape.Transform.Chain

namespace Reshape

theorem operandOf?_mem {v : Verb} {ms : List (Member Tree)} {t : Tree} (h : operandOf? v ms = some t) :
    ∃ m ∈ ms, Verb.ofKey? m.key = some v ∧ m.value = t := by
  induction ms with
  | nil => cases h
  | cons m rest ih =>
    rw [operandOf?] at h
    split at h
    · rename_i hv
      exact ⟨m, List.mem_cons_self, hv, Option.some.inj h⟩
    · obtain ⟨n, hn, hk⟩ := ih h
      exact ⟨n, List.mem_cons_of_mem _ hn, hk⟩

theorem operandOf?_eq_none {v : Verb} {ms : List (Member Tree)} (h : ∀ m ∈ ms, Verb.ofKey? m.key = none) :
    operandOf? v ms = none := by
  cases ho : operandOf? v ms with
  | none => rfl
  | some t =>
    obtain ⟨m, hm, hk, -⟩ := operandOf?_mem ho
    rw [h m hm] at hk; cases hk

/-- A key that is no directive names no verb. -/
theorem Verb.ofKey?_of_literal {key : String} (h : directiveName? key = none) : Verb.ofKey? key = none := by
  rw [Verb.ofKey?, h]; rfl

/-! ## Operands in turn -/

/-- The operands that a transform gives a verb: none, one, or the items of an array. -/
def Verb.operands (verb : Verb) (t : Tree) : List Tree :=
  match operandOf? verb t.members with
  | none => []
  | some operand =>
    match operand.content with
    | .array operands => operands
    | _ => [operand]

/-- An operand is a member's value of the transform, or a part of one. -/
theorem Verb.mem_operands {verb : Verb} {t operand : Tree} (h : operand ∈ verb.operands t) :
    ∃ m ∈ t.members, operand = m.value ∨ operand ∈ m.value.content.parts := by
  unfold Verb.operands at h
  split at h
  · cases h
  · rename_i stated ho
    obtain ⟨m, hm, -, rfl⟩ := operandOf?_mem ho
    refine ⟨m, hm, ?_⟩
    split at h
    · rename_i operands hc
      exact Or.inr (by rw [hc]; exact h)
    · exact Or.inl (List.mem_singleton.mp h)

theorem Verb.operands_keyed {verb : Verb} {t operand : Tree} (ht : t.Keyed)
    (h : operand ∈ verb.operands t) : operand.Keyed := by
  obtain ⟨m, hm, rfl | hp⟩ := Verb.mem_operands h
  · exact ht.member hm
  · exact (ht.member hm).part hp

theorem Verb.operands_eq_nil {verb : Verb} {t : Tree} (h : ∀ m ∈ t.members, Verb.ofKey? m.key = none) :
    verb.operands t = [] := by
  rw [Verb.operands, operandOf?_eq_none h]

theorem Verb.actAll_singleton (nested : Tree → NodeId → Run Unit) (verb : Verb) (node : NodeId) (operand : Tree) :
    verb.actAll nested node [operand] = verb.act nested node operand := by
  rw [Verb.actAll]
  refine (congrArg _ (funext fun flow => ?_)).trans (bind_pure _)
  cases flow <;> rfl

/-- What comes behind gets its turn unless something before it has halted. -/
theorem Verb.actAll_append (nested : Tree → NodeId → Run Unit) (verb : Verb) (node : NodeId) (before behind : List Tree) :
    verb.actAll nested node (before ++ behind) =
      (do
        match ← verb.actAll nested node before with
        | .halt => return .halt
        | .proceed => verb.actAll nested node behind) := by
  induction before with
  | nil => rfl
  | cons operand rest ih =>
    rw [List.cons_append, Verb.actAll, Verb.actAll, ih, bind_assoc]
    refine congrArg _ (funext fun flow => ?_)
    cases flow <;> rfl

/-- A verb acts with its operands in turn, be there one or many. -/
theorem Verb.apply_eq (nested : Tree → NodeId → Run Unit) (verb : Verb) (t : Tree) (node : NodeId) :
    verb.apply nested t node = verb.actAll nested node (verb.operands t) := by
  unfold Verb.apply Verb.operands
  cases operandOf? verb t.members with
  | none => rfl
  | some operand =>
    simp only
    cases operand.content with
    | array operands => rfl
    | _ => exact (Verb.actAll_singleton nested verb node operand).symm

/-! ## Attributes -/

namespace Attributes

theorem mem_of_setting? {named : Attribute} {attributes : Attributes} {t : Tree}
    (h : named.setting? attributes = some t) : (named, t) ∈ attributes := by
  induction attributes with
  | nil => cases h
  | cons p rest ih =>
    obtain ⟨a, u⟩ := p
    rw [Attribute.setting?] at h
    split at h
    · rename_i e
      obtain rfl := Option.some.inj h
      exact e ▸ List.mem_cons_self
    · exact List.mem_cons_of_mem _ (ih h)

theorem mem_put {named : Attribute} {t : Tree} {attributes : Attributes} {p : Attribute × Tree}
    (h : p ∈ put named t attributes) : p.2 = t ∨ p ∈ attributes := by
  induction attributes with
  | nil =>
    rw [put, List.mem_singleton] at h
    exact Or.inl (h ▸ rfl)
  | cons q rest ih =>
    rw [put] at h
    split at h
    · rcases List.mem_cons.mp h with rfl | h
      · exact Or.inl rfl
      · exact Or.inr (List.mem_cons_of_mem _ h)
    · rcases List.mem_cons.mp h with rfl | h
      · exact Or.inr List.mem_cons_self
      · exact (ih h).imp_right (List.mem_cons_of_mem _)

theorem setting?_put_self (named : Attribute) (t : Tree) (attributes : Attributes) :
    named.setting? (put named t attributes) = some t := by
  induction attributes with
  | nil => simp [put, Attribute.setting?]
  | cons q rest ih =>
    rw [put]
    split
    · rename_i e
      simp [Attribute.setting?, e]
    · rename_i e
      simp [Attribute.setting?, e, ih]

theorem setting?_put_of_ne {a named : Attribute} (hne : a ≠ named) (t : Tree) (attributes : Attributes) :
    a.setting? (put named t attributes) = a.setting? attributes := by
  induction attributes with
  | nil => simp [put, Attribute.setting?, Ne.symm hne]
  | cons q rest ih =>
    rw [put]
    split
    · rename_i e
      simp [Attribute.setting?, e, Ne.symm hne]
    · simp only [Attribute.setting?, ih]

/-- What attributes are set to are members' values. -/
theorem mem_collect {accepted : List Attribute} {seen attributes : Attributes} {ms : List (Member Tree)}
    (h : collect accepted seen ms = .ok attributes) {p : Attribute × Tree} (hp : p ∈ attributes) :
    p ∈ seen ∨ ∃ m ∈ ms, m.value = p.2 := by
  induction ms generalizing seen with
  | nil =>
    obtain rfl := Except.ok.inj h
    exact Or.inl hp
  | cons m rest ih =>
    rw [collect] at h
    split at h
    · exact (ih h).imp_right fun ⟨n, hn, e⟩ => ⟨n, List.mem_cons_of_mem _ hn, e⟩
    · split at h
      · rcases ih h with hput | ⟨n, hn, e⟩
        · exact (mem_put hput).symm.imp_right fun e => ⟨m, List.mem_cons_self, e.symm⟩
        · exact Or.inr ⟨n, List.mem_cons_of_mem _ hn, e⟩
      · cases h

/-- An attribute that is set stays set. -/
theorem setting?_collect {accepted : List Attribute} {seen attributes : Attributes}
    {ms : List (Member Tree)} (h : collect accepted seen ms = .ok attributes) {a : Attribute}
    (ha : a.setting? seen ≠ none) : a.setting? attributes ≠ none := by
  induction ms generalizing seen with
  | nil =>
    obtain rfl := Except.ok.inj h
    exact ha
  | cons m rest ih =>
    rw [collect] at h
    split at h
    · exact ih h ha
    · split at h
      · rename_i named _
        refine ih h ?_
        by_cases e : a = named
        · rw [e, setting?_put_self]; simp
        · rw [setting?_put_of_ne e]; exact ha
      · cases h

/-- Members without directive keys set nothing. -/
theorem collect_of_literal {accepted : List Attribute} {seen : Attributes} {ms : List (Member Tree)}
    (h : ∀ m ∈ ms, directiveName? m.key = none) : collect accepted seen ms = .ok seen := by
  induction ms with
  | nil => rfl
  | cons m rest ih =>
    rw [collect, h m List.mem_cons_self]
    exact ih fun n hn => h n (List.mem_cons_of_mem _ hn)

/-- Each directive key among the members sets an attribute. -/
theorem collect_sets {accepted : List Attribute} {seen attributes : Attributes}
    {ms : List (Member Tree)} (h : collect accepted seen ms = .ok attributes) {m : Member Tree}
    (hm : m ∈ ms) (hk : directiveName? m.key ≠ none) :
    ∃ a : Attribute, a.setting? attributes ≠ none := by
  induction ms generalizing seen with
  | nil => cases hm
  | cons n rest ih =>
    rw [collect] at h
    split at h
    · rename_i hn
      rcases List.mem_cons.mp hm with rfl | hm
      · exact absurd hn hk
      · exact ih h hm
    · split at h
      · rename_i named _
        rcases List.mem_cons.mp hm with rfl | hm
        · exact ⟨named, setting?_collect h (by rw [setting?_put_self]; simp)⟩
        · exact ih h hm
      · cases h

end Attributes

namespace Target

theorem ofOperand?_eq {verb : Verb} {operand : Tree} {found : Option Target}
    (h : Target.ofOperand? verb operand = .ok found) :
    ∃ attributes, Attributes.collect [.path, .value] [] operand.members = .ok attributes ∧
      Target.ofAttributes? verb attributes operand = .ok found := by
  unfold ofOperand? Attributes.ofOperand at h
  cases hc : Attributes.collect [.path, .value] [] operand.members with
  | error f => rw [hc] at h; cases h
  | ok attributes =>
    refine ⟨attributes, rfl, ?_⟩
    simp only [hc, Except.bind] at h
    split at h
    · cases h
    · rename_i hok
      split at hok
      · cases hok; exact h
      · cases hok

/-- The value that goes with a path is a member's value of the operand. -/
theorem ofOperand?_value {verb : Verb} {operand : Tree} {target : Target}
    (h : Target.ofOperand? verb operand = .ok (some target)) :
    ∃ m ∈ operand.members, m.value = target.value := by
  obtain ⟨attributes, hc, ha⟩ := ofOperand?_eq h
  unfold ofAttributes? at ha
  split at ha
  · cases ha
  · rename_i path value _ hv
    unfold pathText at ha
    split at ha
    · obtain rfl := Option.some.inj (Except.ok.inj ha)
      exact (Attributes.mem_collect hc (Attributes.mem_of_setting? hv)).resolve_left List.not_mem_nil
    · cases ha
  · cases ha
  · cases ha

/-- An operand that is plain data has no directive key. -/
theorem ofOperand?_none {verb : Verb} {operand : Tree} (h : Target.ofOperand? verb operand = .ok none) :
    ∀ m ∈ operand.members, directiveName? m.key = none := by
  obtain ⟨attributes, hc, ha⟩ := ofOperand?_eq h
  have hnone : ∀ a : Attribute, a.setting? attributes = none := by
    unfold ofAttributes? at ha
    split at ha
    · rename_i hp hv
      intro a
      cases a with
      | path => exact hp
      | value => exact hv
    · unfold pathText at ha
      split at ha <;> cases ha
    · cases ha
    · cases ha
  intro m hm
  apply Classical.byContradiction
  intro hk
  obtain ⟨a, hset⟩ := Attributes.collect_sets hc hm hk
  exact hset (hnone a)

/-- An operand without directive keys is plain data. -/
theorem ofOperand?_of_literal {operand : Tree} (h : ∀ m ∈ operand.members, directiveName? m.key = none)
    (verb : Verb) : Target.ofOperand? verb operand = .ok none := by
  rw [ofOperand?, Attributes.ofOperand, Attributes.collect_of_literal h]
  rfl

end Target

end Reshape
