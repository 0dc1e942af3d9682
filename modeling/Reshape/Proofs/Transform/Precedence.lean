/-
  Reshape.Proofs.Transform.Precedence — which of the members that name a verb is its operand.

  A transform is accepted when each of its directives names a verb. Keys that differ in the
  case of their letters are different keys, so several members of one object may name the same
  verb, and all of them are accepted. A verb takes the first member that names it, and no
  other; the members behind that one are no literal members either, so nothing is done with them.

  - `checkVerbs_iff`: a transform is accepted exactly if each directive names one of the verbs.
  - `accepted_acts_unless_preceded`: an accepted directive is what its verb acts with exactly
    if no member before it names the same verb.
  - `later_namesake_shadowed`: of two members that name one verb, the second is passed over.
-/

import Reshape.Proofs.Json.Keyed
import Reshape.Proofs.Transform.Operands

namespace Reshape

variable {v : Verb} {m : Member Tree} {ms : List (Member Tree)} {t : Tree}

/-! ## Accepted directives -/

theorem Verb.mem_all (v : Verb) : v ∈ Verb.all := by
  cases v <;> decide

/-- Each member is either literal or has to name one of the verbs. -/
theorem checkVerbs_cons (verbs : List Verb) (m : Member Tree) (ms : List (Member Tree)) :
    checkVerbs verbs (m :: ms) = .ok () ↔
      (isDirective m.key = true → ∃ v ∈ verbs, Verb.ofKey? m.key = some v) ∧ checkVerbs verbs ms = .ok () := by
  rw [checkVerbs, isDirective, Verb.ofKey?]
  cases directiveName? m.key with
  | none => simp
  | some name =>
    simp only [Option.isSome_some, Option.bind_some, forall_const]
    cases hv : (Verb.ofName? name).filter verbs.contains with
    | none =>
      constructor
      · intro h
        cases h
      · intro h
        obtain ⟨v, hmem, hname⟩ := h.1
        rw [hname, Option.filter_some, if_pos (by simpa using hmem)] at hv
        cases hv
    | some v =>
      obtain ⟨hname, hmem⟩ := Option.filter_eq_some_iff.mp hv
      exact ⟨fun h => ⟨⟨v, by simpa using hmem, hname⟩, h⟩, And.right⟩

/-- A transform is accepted exactly if each directive names one of the verbs. -/
theorem checkVerbs_iff (verbs : List Verb) :
    checkVerbs verbs ms = .ok () ↔
      ∀ m ∈ ms, isDirective m.key = true → ∃ v ∈ verbs, Verb.ofKey? m.key = some v := by
  induction ms with
  | nil => simp [checkVerbs]
  | cons m rest ih => rw [checkVerbs_cons, ih, List.forall_mem_cons]

/-! ## The first of its name -/

def Verb.names (v : Verb) (m : Member Tree) : Bool := Verb.ofKey? m.key == some v

theorem Verb.names_iff : v.names m = true ↔ Verb.ofKey? m.key = some v := by
  rw [Verb.names, beq_iff_eq]

/-- The operand of a verb is the value of the first member that names it. -/
theorem operandOf?_eq_find? (v : Verb) (ms : List (Member Tree)) :
    operandOf? v ms = (ms.find? v.names).map Member.value := by
  induction ms with
  | nil => rfl
  | cons m rest ih =>
    rw [operandOf?]
    split
    · rename_i h
      rw [List.find?_cons_of_pos (Verb.names_iff.mpr h)]
      rfl
    · rename_i h
      rw [List.find?_cons_of_neg fun hn => h (Verb.names_iff.mp hn)]
      exact ih

/-- Where a member names the verb, the first that does is that member or stands before it. -/
theorem exists_first (before after : List (Member Tree)) (hm : v.names m = true) :
    ∃ first, (before ++ m :: after).find? v.names = some first ∧ (first = m ∨ first ∈ before) := by
  cases hb : before.find? v.names with
  | some first =>
    refine ⟨first, ?_, Or.inr (List.mem_of_find?_eq_some hb)⟩
    rw [List.find?_append, hb]
    rfl
  | none =>
    refine ⟨m, ?_, Or.inl rfl⟩
    rw [List.find?_append, hb, List.find?_cons_of_pos hm]
    rfl

/-- Among members with different keys, one is the first to name a verb exactly if none before it does. -/
theorem first_iff {before after : List (Member Tree)} (hk : ((before ++ m :: after).map Member.key).Nodup)
    (hm : v.names m = true) :
    (before ++ m :: after).find? v.names = some m ↔ ∀ n ∈ before, Verb.ofKey? n.key ≠ some v := by
  have hnew : m ∉ before := by
    intro hmem
    rw [List.map_append, List.map_cons, List.nodup_append] at hk
    exact hk.2.2 m.key (List.mem_map_of_mem hmem) m.key List.mem_cons_self rfl
  rw [List.find?_append]
  constructor
  · intro h n hn hname
    obtain ⟨first, hfirst⟩ := Option.isSome_iff_exists.mp
      (List.find?_isSome.mpr ⟨n, hn, Verb.names_iff.mpr hname⟩)
    rw [hfirst] at h
    obtain rfl := Option.some.inj h
    exact hnew (List.mem_of_find?_eq_some hfirst)
  · intro h
    have hnone : before.find? v.names = none :=
      List.find?_eq_none.mpr fun n hn hname => h n hn (Verb.names_iff.mp hname)
    rw [hnone, List.find?_cons_of_pos hm]
    rfl

/-- The operands that a value states: the items of an array, or the value itself. -/
def Tree.operands (t : Tree) : List Tree :=
  match t.content with
  | .array operands => operands
  | _ => [t]

theorem Verb.operands_of_operandOf? {operand : Tree} (h : operandOf? v t.members = some operand) :
    v.operands t = operand.operands := by
  rw [Verb.operands, h]
  rfl

/-- Every directive of an accepted transform names a verb, and the verb acts with the value of the first member
    that names it. This is the value of the directive itself exactly if no member before it names the verb. -/
theorem accepted_acts_unless_preceded (hk : (t.members.map Member.key).Nodup)
    (hv : checkVerbs Verb.all t.members = .ok ()) {before after : List (Member Tree)}
    (hm : t.members = before ++ m :: after) (hd : isDirective m.key = true) :
    ∃ v first, Verb.ofKey? m.key = some v ∧ (first = m ∨ first ∈ before) ∧ Verb.ofKey? first.key = some v ∧
      (first = m ↔ ∀ n ∈ before, Verb.ofKey? n.key ≠ some v) ∧ operandOf? v t.members = some first.value ∧
      ∀ nested node, v.apply nested t node = v.actAll nested node first.value.operands := by
  have hmem : m ∈ t.members := by rw [hm]; simp
  obtain ⟨v, -, hname⟩ := (checkVerbs_iff Verb.all).mp hv m hmem hd
  obtain ⟨first, hfirst, hplace⟩ := exists_first before after (Verb.names_iff.mpr hname)
  have hiff : first = m ↔ ∀ n ∈ before, Verb.ofKey? n.key ≠ some v := by
    rw [hm] at hk
    rw [← first_iff hk (Verb.names_iff.mpr hname), hfirst, Option.some.injEq]
  have hoperand : operandOf? v t.members = some first.value := by
    rw [operandOf?_eq_find?, hm, hfirst]
    rfl
  refine ⟨v, first, hname, hplace, Verb.names_iff.mp (List.find?_some hfirst), hiff, hoperand, fun nested node => ?_⟩
  rw [Verb.apply_eq, Verb.operands_of_operandOf? hoperand]

def removesTwice : Tree :=
  .ofValue (.object [("@jdt.rename", .object []), ("a", .scalar .null), ("@JDT.Remove", .ofString "b"),
    ("@jdt.remove", .ofString "c")])

theorem removesTwice_accepted : checkVerbs Verb.all removesTwice.members = .ok () :=
  (checkVerbs_iff Verb.all).mpr (by decide +kernel)

/-- The first member that names the verb, though in other letters, is its operand. -/
theorem capitals_act_unpreceded :
    operandOf? .remove removesTwice.members = some (.ofValue (.ofString "b")) := by
  have hmembers : removesTwice.members =
      [⟨"@jdt.rename", none, .ofValue (.object [])⟩, ⟨"a", none, .ofValue (.scalar .null)⟩] ++
        ⟨"@JDT.Remove", none, .ofValue (.ofString "b")⟩ :: [⟨"@jdt.remove", none, .ofValue (.ofString "c")⟩] := rfl
  obtain ⟨v, first, hname, -, -, hiff, hoperand, -⟩ :=
    accepted_acts_unless_preceded (by decide +kernel) removesTwice_accepted hmembers (by decide +kernel)
  have hremove : Verb.ofKey? "@JDT.Remove" = some .remove := by decide +kernel
  obtain rfl : Verb.remove = v := Option.some.inj (hremove.symm.trans hname)
  obtain rfl := hiff.mpr (by decide +kernel)
  exact hoperand

/-- Of two members that name one verb, both are accepted, and the second is passed over. -/
theorem later_namesake_shadowed :
    removesTwice.Keyed ∧ checkVerbs Verb.all removesTwice.members = .ok () ∧
      ∃ m ∈ removesTwice.members, isDirective m.key = true ∧ Verb.ofKey? m.key = some .remove ∧
        operandOf? .remove removesTwice.members ≠ some m.value := by
  refine ⟨Tree.keyed_ofValue _ (by simp [Value.Keyed, Value.MembersKeyed, Value.ofString]), removesTwice_accepted,
    ⟨"@jdt.remove", none, .ofValue (.ofString "c")⟩, ?_, by decide +kernel, by decide +kernel, fun h => ?_⟩
  · simp [removesTwice, Tree.ofValue, Tree.ofMembers, Tree.members, Content.members, Value.ofString]
  · have hb : (operandOf? .remove removesTwice.members).bind Tree.string? = some "b" := by decide +kernel
    rw [h] at hb
    exact absurd (Option.some.inj hb) (by decide)

end Reshape
