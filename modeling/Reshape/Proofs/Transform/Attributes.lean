/-
  Reshape.Proofs.Transform.Attributes — what becomes of the attributes that an operand states.

  An operand's members are gone through in order. The first directive that names no accepted
  attribute is a fault. Where there is none, each directive sets the attribute that it names,
  and at the end the attributes set are counted against the members: literal members beside
  them are a fault, since then there are fewer attributes than members. There are fewer as
  well when two keys, different in the case of their letters, name one attribute.

  - `collect_offended`, `collect_unoffended`: what going through the members comes to.
  - `setting?_gather`: an attribute is set to the value of the last member that names it.
  - `length_gather_iff`: there are as many attributes as members exactly if each member names
    an attribute and no two name the same.
  - `ofOperand_exact`: the verdict on an operand, in all cases. `namesakes_refused` is the
    case that two keys name one attribute, with no literal member beside them.
-/

import Mathlib.Data.List.Dedup
import Reshape.Proofs.Transform.Operands

namespace Reshape.Attributes

/-! ## What keys name -/

def named? (accepted : List Attribute) (key : String) : Option Attribute :=
  (Attribute.ofKey? key).filter accepted.contains

def offends (accepted : List Attribute) (m : Member Tree) : Bool :=
  isDirective m.key && (named? accepted m.key).isNone

def names (accepted : List Attribute) (ms : List (Member Tree)) : List Attribute :=
  ms.filterMap fun m => named? accepted m.key

def statements (accepted : List Attribute) (a : Attribute) (ms : List (Member Tree)) : List (Member Tree) :=
  ms.filter fun m => named? accepted m.key == some a

def Mixed (ms : List (Member Tree)) : Prop :=
  (∃ m ∈ ms, isDirective m.key = true) ∧ ∃ m ∈ ms, isDirective m.key = false

def Repeated (accepted : List Attribute) (ms : List (Member Tree)) : Prop := ¬ (names accepted ms).Nodup

variable {accepted : List Attribute} {a : Attribute} {m : Member Tree} {ms : List (Member Tree)}
  {seen : Attributes} {t : Tree}

/-- A literal key names no attribute. -/
theorem named?_of_literal (h : isDirective m.key = false) : named? accepted m.key = none := by
  have hname : directiveName? m.key = none := by simpa [isDirective] using h
  rw [named?, Attribute.ofKey?, hname]
  rfl

/-- Where no member offends, the directives are the members that name an accepted attribute. -/
theorem isDirective_iff_named (h : offends accepted m = false) :
    isDirective m.key = true ↔ ∃ a, named? accepted m.key = some a := by
  constructor
  · intro hd
    have hsome : (named? accepted m.key).isNone = false := by simpa [offends, hd] using h
    exact Option.ne_none_iff_exists'.mp fun e => by rw [e] at hsome; cases hsome
  · intro ⟨a, ha⟩
    cases hd : isDirective m.key with
    | true => rfl
    | false => rw [named?_of_literal hd] at ha; cases ha

/-! ## Going through the members -/

def gather (accepted : List Attribute) (seen : Attributes) (ms : List (Member Tree)) : Attributes :=
  ms.foldl (fun seen m => ((named? accepted m.key).map fun a => put a m.value seen).getD seen) seen

theorem gather_cons (accepted : List Attribute) (seen : Attributes) (m : Member Tree) (ms : List (Member Tree)) :
    gather accepted seen (m :: ms) =
      gather accepted (((named? accepted m.key).map fun a => put a m.value seen).getD seen) ms := rfl

/-- One member sets what it names, or is a fault. -/
theorem collect_cons (accepted : List Attribute) (seen : Attributes) (m : Member Tree) (ms : List (Member Tree)) :
    collect accepted seen (m :: ms) =
      if offends accepted m then .error (.inTransform (.unknownAttribute m.key) m.position)
      else collect accepted (((named? accepted m.key).map fun a => put a m.value seen).getD seen) ms := by
  rw [collect, offends, isDirective, named?, Attribute.ofKey?]
  cases directiveName? m.key with
  | none => rfl
  | some name =>
    simp only [Option.bind_some]
    cases (Attribute.ofName? name).filter accepted.contains with
    | none => rfl
    | some named => rfl

/-- The first member that offends is the fault. -/
theorem collect_offended (h : ms.find? (offends accepted) = some m) :
    collect accepted seen ms = .error (.inTransform (.unknownAttribute m.key) m.position) := by
  induction ms generalizing seen with
  | nil => cases h
  | cons n rest ih =>
    rw [collect_cons]
    cases hn : offends accepted n with
    | true =>
      rw [List.find?_cons_of_pos hn] at h
      obtain rfl := Option.some.inj h
      rfl
    | false =>
      rw [List.find?_cons_of_neg (by simp [hn])] at h
      exact ih h

/-- Where no member offends, all that is named is set. -/
theorem collect_unoffended (h : ∀ m ∈ ms, offends accepted m = false) :
    collect accepted seen ms = .ok (gather accepted seen ms) := by
  induction ms generalizing seen with
  | nil => rfl
  | cons n rest ih =>
    rw [collect_cons, h n List.mem_cons_self, gather_cons]
    exact ih fun m hm => h m (List.mem_cons_of_mem _ hm)

/-! ## What is set -/

theorem keys_put (a : Attribute) (t : Tree) (seen : Attributes) :
    (put a t seen).map Prod.fst = if a ∈ seen.map Prod.fst then seen.map Prod.fst else seen.map Prod.fst ++ [a] := by
  induction seen with
  | nil => rfl
  | cons p rest ih =>
    rw [put]
    by_cases e : p.1 = a
    · simp [e]
    · simp only [e, if_false, List.map_cons, ih, List.mem_cons, Ne.symm e, false_or]
      split <;> simp

theorem nodup_keys_put (h : (seen.map Prod.fst).Nodup) : ((put a t seen).map Prod.fst).Nodup := by
  rw [keys_put]
  split
  · exact h
  · rename_i hnew
    rw [← List.concat_eq_append]
    exact h.concat hnew

/-- No attribute is listed twice. -/
theorem nodup_keys_gather (h : (seen.map Prod.fst).Nodup) : ((gather accepted seen ms).map Prod.fst).Nodup := by
  induction ms generalizing seen with
  | nil => exact h
  | cons m rest ih =>
    rw [gather_cons]
    cases named? accepted m.key with
    | none => exact ih h
    | some a => exact ih (nodup_keys_put h)

/-- The attributes set are those that were set before and those that members name. -/
theorem mem_keys_gather :
    a ∈ (gather accepted seen ms).map Prod.fst ↔ a ∈ seen.map Prod.fst ∨ a ∈ names accepted ms := by
  induction ms generalizing seen with
  | nil => simp [gather, names]
  | cons m rest ih =>
    have hnames : names accepted (m :: rest) = (named? accepted m.key).toList ++ names accepted rest := by
      rw [names, List.filterMap_cons]
      cases named? accepted m.key <;> rfl
    rw [gather_cons, ih, hnames]
    cases named? accepted m.key with
    | none => simp
    | some b =>
      have hput : a ∈ (put b m.value seen).map Prod.fst ↔ a ∈ seen.map Prod.fst ∨ a = b := by
        rw [keys_put]
        split
        · rename_i hb
          exact ⟨Or.inl, fun h => h.elim id fun e => e ▸ hb⟩
        · simp
      simp only [Option.map_some, Option.getD_some, hput, Option.toList_some, List.singleton_append, List.mem_cons,
        or_assoc]

/-- An attribute is set to the value of the last member that names it. -/
theorem setting?_gather (a : Attribute) :
    a.setting? (gather accepted seen ms) =
      ((statements accepted a ms).getLast?.map Member.value).or (a.setting? seen) := by
  induction ms generalizing seen with
  | nil => rfl
  | cons m rest ih =>
    rw [gather_cons, ih]
    by_cases e : named? accepted m.key = some a
    · have hstated : statements accepted a (m :: rest) = m :: statements accepted a rest :=
        List.filter_cons_of_pos (by simp [e])
      rw [hstated, e, List.getLast?_cons]
      simp only [Option.map_some, Option.getD_some, setting?_put_self]
      cases (statements accepted a rest).getLast? <;> rfl
    · have hstated : statements accepted a (m :: rest) = statements accepted a rest :=
        List.filter_cons_of_neg (by simp [e])
      rw [hstated]
      congr 1
      cases hb : named? accepted m.key with
      | none => rfl
      | some b =>
        have hne : a ≠ b := by
          intro h
          exact e (hb.trans (congrArg some h.symm))
        exact setting?_put_of_ne hne m.value seen

/-! ## Counting -/

theorem length_names_le (accepted : List Attribute) (ms : List (Member Tree)) :
    (names accepted ms).length ≤ ms.length := List.length_filterMap_le _ _

/-- There are as many names as members if each member names an attribute. -/
theorem length_names_iff : (names accepted ms).length = ms.length ↔ ∀ m ∈ ms, ∃ a, named? accepted m.key = some a := by
  induction ms with
  | nil => simp [names]
  | cons m rest ih =>
    rw [List.forall_mem_cons, ← ih, names, List.filterMap_cons]
    have hle := length_names_le accepted rest
    cases named? accepted m.key with
    | none =>
      have hne : ((rest.filterMap fun m => named? accepted m.key).length = rest.length + 1) ↔ False :=
        iff_false_intro fun h => by rw [names] at hle; omega
      simpa using hne
    | some a => simp [names]

/-- There are as many attributes as names, less the repetitions. -/
theorem length_gather (accepted : List Attribute) (ms : List (Member Tree)) :
    (gather accepted [] ms).length = (names accepted ms).dedup.length := by
  have hperm : ((gather accepted [] ms).map Prod.fst).Perm (names accepted ms).dedup := by
    have hkeys : ((gather accepted [] ms).map Prod.fst).Nodup := nodup_keys_gather List.nodup_nil
    refine (List.perm_ext_iff_of_nodup hkeys (List.nodup_dedup _)).mpr fun a => ?_
    rw [mem_keys_gather, List.mem_dedup]
    simp
  rw [← hperm.length_eq, List.length_map]

/-- There are as many attributes as members if each names an attribute and no two name the same. -/
theorem length_gather_iff :
    (gather accepted [] ms).length = ms.length ↔
      (∀ m ∈ ms, ∃ a, named? accepted m.key = some a) ∧ (names accepted ms).Nodup := by
  have hle := length_names_le accepted ms
  have hdedup : (names accepted ms).dedup.length ≤ (names accepted ms).length := (List.dedup_sublist _).length_le
  rw [length_gather, ← length_names_iff]
  constructor
  · intro h
    have hsame : (names accepted ms).dedup.length = (names accepted ms).length := by omega
    exact ⟨by omega, List.dedup_eq_self.mp ((List.dedup_sublist _).eq_of_length hsame)⟩
  · intro ⟨hall, hnodup⟩
    rw [hnodup.dedup, hall]

/-- Attributes pass if there are none, or nothing beside them, not even one of the same name. -/
theorem passes_iff (h : ∀ m ∈ ms, offends accepted m = false) :
    ((gather accepted [] ms).isEmpty || (gather accepted [] ms).length == ms.length) = true ↔
      ¬ (Mixed ms ∨ Repeated accepted ms) := by
  have hdirective : (∃ m ∈ ms, isDirective m.key = true) ↔ names accepted ms ≠ [] := by
    simp only [names, ne_eq, List.filterMap_eq_nil_iff, not_forall, exists_prop]
    refine exists_congr fun m => and_congr_right fun hm => ?_
    rw [isDirective_iff_named (h m hm)]
    exact Option.ne_none_iff_exists'.symm
  have hall : (∀ m ∈ ms, ∃ a, named? accepted m.key = some a) ↔ ¬ ∃ m ∈ ms, isDirective m.key = false := by
    simp only [not_exists, not_and, Bool.not_eq_false]
    exact forall₂_congr fun m hm => (isDirective_iff_named (h m hm)).symm
  have hempty : (gather accepted [] ms).isEmpty = true ↔ names accepted ms = [] := by
    rw [List.isEmpty_iff_length_eq_zero, length_gather, List.length_eq_zero_iff, List.dedup_eq_nil]
  rw [Bool.or_eq_true, beq_iff_eq, hempty, length_gather_iff, hall, Mixed, hdirective, Repeated]
  by_cases hnil : names accepted ms = []
  · simp [hnil]
  · simp [hnil]

/-! ## The verdict -/

theorem ofOperand_unoffended {operand : Tree} (h : ∀ m ∈ operand.members, offends accepted m = false) :
    ofOperand accepted operand =
      if (gather accepted [] operand.members).isEmpty ||
          (gather accepted [] operand.members).length == operand.members.length then
        .ok (gather accepted [] operand.members)
      else .error (.inTransform .mixedAttributes operand.position) := by
  rw [ofOperand, collect_unoffended h]
  rfl

/-- The first directive that names no accepted attribute is the fault. Where there is none, the attributes are
    refused if there is a literal member beside them, or one that repeats an attribute, and in no other case; they
    are accepted as a map of just the attributes named, each set to the value of the last member that names it. -/
theorem ofOperand_exact (accepted : List Attribute) (operand : Tree) :
    match operand.members.find? (offends accepted) with
    | some m => ofOperand accepted operand = .error (.inTransform (.unknownAttribute m.key) m.position)
    | none =>
      ((Mixed operand.members ∨ Repeated accepted operand.members) ∧
        ofOperand accepted operand = .error (.inTransform .mixedAttributes operand.position)) ∨
      (¬ (Mixed operand.members ∨ Repeated accepted operand.members) ∧
        ∃ attributes, ofOperand accepted operand = .ok attributes ∧ (attributes.map Prod.fst).Nodup ∧
          ∀ a : Attribute, a.setting? attributes =
            (statements accepted a operand.members).getLast?.map Member.value) := by
  cases hfind : operand.members.find? (offends accepted) with
  | some m =>
    show ofOperand accepted operand = _
    rw [ofOperand, collect_offended hfind]
    rfl
  | none =>
    have h : ∀ m ∈ operand.members, offends accepted m = false := fun m hm => by
      simpa using List.find?_eq_none.mp hfind m hm
    show _ ∨ _
    rw [ofOperand_unoffended h]
    by_cases hp : Mixed operand.members ∨ Repeated accepted operand.members
    · refine Or.inl ⟨hp, ?_⟩
      rw [if_neg fun hpass => (passes_iff h).mp hpass hp]
    · refine Or.inr ⟨hp, gather accepted [] operand.members, ?_, nodup_keys_gather List.nodup_nil, fun a => ?_⟩
      · rw [if_pos ((passes_iff h).mpr hp)]
      · rw [setting?_gather]
        cases (statements accepted a operand.members).getLast? <;> rfl

def namesakes : Tree := .ofValue (.object [("@jdt.path", .ofString "a"), ("@JDT.path", .ofString "b")])

/-- Two keys that name one attribute are refused as a mixture, though no member is literal. -/
theorem namesakes_refused :
    namesakes.Keyed ∧ (∀ m ∈ namesakes.members, offends [.path, .value] m = false) ∧ ¬ Mixed namesakes.members ∧
      ofOperand [.path, .value] namesakes = .error (.inTransform .mixedAttributes namesakes.position) := by
  have hdirective : ∀ m ∈ namesakes.members, isDirective m.key = true := by decide +kernel
  have hoffends : ∀ m ∈ namesakes.members, offends [.path, .value] m = false := by decide +kernel
  refine ⟨Tree.keyed_ofValue _ (by simp [Value.Keyed, Value.MembersKeyed, Value.ofString]), hoffends, ?_, ?_⟩
  · intro hmixed
    obtain ⟨m, hm, hliteral⟩ := hmixed.2
    rw [hdirective m hm] at hliteral
    cases hliteral
  · rw [ofOperand_unoffended hoffends]
    rfl

end Reshape.Attributes
