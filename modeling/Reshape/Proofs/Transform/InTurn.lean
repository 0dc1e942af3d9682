/-
  Reshape.Proofs.Transform.InTurn — one transform with many operands, or many with one each.

  Operands in an array take their turns with the verb that they are stated for. They may as well
  be stated in transforms of their own, which are applied one after the other: each of these goes
  through all stages, but all stages pass except the verb. The row ends with the first transform
  that fails, and with the first that the verb halts, because a verb that halts gives the operands
  behind no turn (`Verb.inTurn`). What an operand finds is then what those before it have left, be
  that an object that was emptied, renamed or taken out, or no object any more. Apart from telling
  which stage has halted, each transform of the row is applied as it would be on its own
  (`applyTransform_eq_haltingStage?`).

  Objects that a `merge` is given take their turns as transforms. If none of them states attributes
  or other directives at its top, no stage can halt the work on it, so it is simply applied.

  - `operands_in_turn`: an array of operands, and transforms that state one each.
  - `merged_in_turn`: an array of objects to merge, and the objects as transforms.
  - `SameOutcome`: what both ways come to is the same but for positions, as the operands may stand
    in other places in the other transforms. Where they stand in the same, the runs are the same
    step by step (`Verb.inTurn_eq`, `Merging.actAll_literal`).
-/

import Reshape.Proofs.Transform.Independence
import Reshape.Proofs.Transform.Passing

namespace Reshape

variable {node : NodeId} {s : Session} {t list : Tree} {verb : Verb} {us os : List Tree}

/-! ## Same outcomes -/

structure SameOutcome (node : NodeId) (first second : Except Fault Unit × Session) : Prop where
  verdict : SameVerdict Eq first.1 second.1
  rootValue : first.2.document.rootValue = second.2.document.rootValue
  value : first.2.document.value node = second.2.document.value node
  messages : first.2.warnings.map Warning.message = second.2.warnings.map Warning.message

/-- A well-formed document is alike to itself, each of its nodes being its own counterpart. -/
theorem Document.WellFormed.alike_self {d : Document} (h : d.WellFormed) :
    Document.Alike (fun a b => a = b ∧ d.Holds a) d d where
  left := h
  right := h
  one_one := by
    rintro a b a' b' ⟨rfl, -⟩ ⟨rfl, -⟩
    exact Iff.rfl
  root := ⟨rfl, h.root_held⟩
  holds_left hab := hab.2
  holds_right := by
    rintro a b ⟨rfl, ha⟩
    exact ha
  node := by
    rintro a b ⟨rfl, -⟩
    refine ⟨(h.value_eq_iff h.toLinked).mp rfl |>.of_getElem? fun i x y hx hy _ => ?_, ?_⟩
    · obtain rfl := Option.some.inj (hx.symm.trans hy)
      exact ⟨rfl, h.parts_held (List.mem_of_getElem? hx)⟩
    · show Option.Rel _ (d.parent a) (d.parent a)
      cases hp : d.parent a with
      | none => exact .none
      | some owner => exact .some ⟨rfl, h.holds_owner hp⟩

/-- Work that keeps in step has the same outcome when it is run twice from one session. -/
theorem InStep.sameOutcome {m n : Run Unit} (h : ∀ {R : Pairing}, R node node → InStep R Equal m n)
    (hs : s.document.WellFormed) (hn : s.document.Holds node) : SameOutcome node (m.exec s) (n.exec s) := by
  obtain ⟨S, hle, hS, hverdict⟩ := h ⟨rfl, hn⟩ s s ⟨hs.alike_self, rfl⟩
  exact ⟨hverdict, hS.document.rootValue_eq, hS.document.value_eq (hle node node ⟨rfl, hn⟩), hS.messages_eq⟩

/-! ## Operands in transforms of their own -/

/-- Applies transforms one after the other, up to the first that the verb halts. -/
def Verb.inTurn (verb : Verb) (node : NodeId) : List Tree → Run Unit
  | [] => return
  | t :: rest => do
    if (← haltingStage? applyTransform Stage.all t node) = some (.verb verb) then return
    else verb.inTurn node rest

/-- Where each of the transforms states one of the operands, the verb gives these operands their turns. -/
theorem Verb.inTurn_eq (h : List.Forall₂ (fun u o => u.StatesOnly verb o ∧ o.isArray = false) us os) :
    verb.inTurn node us = (verb.actAll applyTransform node os >>= fun _ => pure ()) := by
  induction h with
  | nil => rfl
  | cons hu _ ih =>
    obtain ⟨hu, harray⟩ := hu
    rw [inTurn, haltingStage?_only hu, hu.operands_eq_singleton harray, actAll_singleton, actAll, ih,
      bind_assoc, bind_assoc]
    refine congrArg _ (funext fun flow => ?_)
    cases flow with
    | halt => simp only [pure_bind, if_true]
    | proceed => simp only [pure_bind, reduceCtorEq, if_false]

/-- An array of operands that are no arrays has the same outcome as transforms that state the operands one by
    one, applied up to the first that fails or that the verb halts. -/
theorem operands_in_turn (h : s.document.WellFormed) (hn : s.document.Holds node) (ht : t.StatesOnly verb list)
    (hl : list.isArray = true) (hos : List.Forall₂ Tree.Alike list.items os)
    (hus : List.Forall₂ (fun u o => u.StatesOnly verb o ∧ o.isArray = false) us os) :
    SameOutcome node ((applyTransform t node).exec s) ((verb.inTurn node us).exec s) := by
  refine InStep.sameOutcome (fun hr => ?_) h hn
  rw [applyTransform_only ht, ht.operands_eq_items hl, Verb.inTurn_eq hus]
  exact .bind (verb.actAll_inStep applyTransform_inStep hr hos) fun _ _ _ _ _ => .of_pure rfl

def twoUnder : Document :=
  .ofValue (.object [("n", .object [("x", .scalar .null), ("y", .scalar (.bool true))])])

/-- A name that is missing, a path to one of the properties, the object itself, and the other property. -/
def fourRemovals : Value :=
  .array [.ofString "z", .object [("@jdt.path", .ofString "$.x")], .scalar (.bool true), .ofString "y"]

def removalsInArray : Tree := .ofValue (.object [("@jdt.remove", fourRemovals)])

def removalsOneByOne : List Tree :=
  (Tree.ofValue fourRemovals).items.map fun o => ⟨none, .object [⟨"@JDT.Remove", none, o⟩]⟩

/-- The third removal halts, so the fourth is made in neither way. -/
theorem four_removals_in_turn :
    SameOutcome ⟨1⟩ ((applyTransform removalsInArray ⟨1⟩).exec ⟨twoUnder, []⟩)
      ((Verb.remove.inTurn ⟨1⟩ removalsOneByOne).exec ⟨twoUnder, []⟩) := by
  have hformed : twoUnder.WellFormed := Document.ofValue_wellFormed (by simp [Value.Keyed, Value.MembersKeyed])
  have hkeyed : (Tree.ofValue fourRemovals).Keyed :=
    Tree.keyed_ofValue _ (by simp [fourRemovals, Value.Keyed, Value.MembersKeyed, Value.ItemsKeyed, Value.ofString])
  have hkey : Verb.ofKey? "@jdt.remove" = some .remove ∧ Verb.ofKey? "@JDT.Remove" = some .remove := by
    decide +kernel
  have hsame : List.Forall₂ Tree.Alike (Tree.ofValue fourRemovals).items (Tree.ofValue fourRemovals).items :=
    List.forall₂_same.mpr fun _ ho => ⟨rfl, hkeyed.item ho, hkeyed.item ho⟩
  have hstates : ∀ o, (⟨none, .object [⟨"@JDT.Remove", none, o⟩]⟩ : Tree).StatesOnly .remove o :=
    fun o => ⟨_, _, rfl, hkey.2⟩
  have hrest : List.Forall₂ (fun u o => u.StatesOnly .remove o ∧ o.isArray = false) removalsOneByOne
      (Tree.ofValue fourRemovals).items :=
    .cons ⟨hstates _, rfl⟩ (.cons ⟨hstates _, rfl⟩ (.cons ⟨hstates _, rfl⟩ (.cons ⟨hstates _, rfl⟩ .nil)))
  exact operands_in_turn hformed (by decide) ⟨_, _, rfl, hkey.1⟩ rfl hsame hrest

/-! ## Objects to merge -/

/-- A `merge` of an object without directives applies the object as a transform. -/
theorem Merging.act_literal {nested : Tree → NodeId → Run Unit} {operand : Tree} (ho : operand.isObject = true)
    (hl : ∀ m ∈ operand.members, isDirective m.key = false) :
    act nested node operand = (do nested operand node; return .proceed) := by
  have hnames : ∀ m ∈ operand.members, directiveName? m.key = none := fun m hm => by
    simpa [isDirective] using hl m hm
  rw [act, ho, Target.ofOperand?_of_literal hnames]
  rfl

theorem Merging.actAll_literal {nested : Tree → NodeId → Run Unit}
    (h : ∀ o ∈ os, o.isObject = true ∧ ∀ m ∈ o.members, isDirective m.key = false) :
    (Verb.merge.actAll nested node os >>= fun _ => pure ()) = forM os fun o => nested o node := by
  induction os with
  | nil => rfl
  | cons o rest ih =>
    obtain ⟨ho, hl⟩ := h o List.mem_cons_self
    rw [Verb.actAll, Verb.act, act_literal ho hl, List.forM_cons, ← ih fun u hu => h u (List.mem_cons_of_mem _ hu)]
    simp only [bind_assoc, pure_bind]

/-- Transforms that are alike keep in step when they are applied one after the other. -/
theorem forM_inStep {R : Pairing} {a b : NodeId} (hr : R a b) (h : List.Forall₂ Tree.Alike os us) :
    InStep R Equal (forM os fun o => applyTransform o a) (forM us fun u => applyTransform u b) := by
  induction h generalizing R with
  | nil => exact .of_pure rfl
  | cons hou _ ih =>
    rw [List.forM_cons, List.forM_cons]
    exact .bind (applyTransform_inStep hr hou) fun S _ _ hle _ => ih (hle a b hr)

/-- An array of objects without directives of their own has, as the operand of `merge`, the same outcome as the
    objects applied as transforms, one after the other and up to the first that fails. -/
theorem merged_in_turn (h : s.document.WellFormed) (hn : s.document.Holds node) (ht : t.StatesOnly .merge list)
    (hl : list.isArray = true)
    (ho : ∀ o ∈ list.items, o.isObject = true ∧ ∀ m ∈ o.members, isDirective m.key = false)
    (hus : List.Forall₂ Tree.Alike list.items us) :
    SameOutcome node ((applyTransform t node).exec s) ((forM us fun u => applyTransform u node).exec s) := by
  refine InStep.sameOutcome (fun hr => ?_) h hn
  rw [applyTransform_only ht, ht.operands_eq_items hl, Merging.actAll_literal ho]
  exact forM_inStep hr hus

def twoLayers : Value :=
  .array [.object [("n", .object [("@jdt.rename", .object [("x", .ofString "w")])]), ("k", .array [])],
    .object [("n", .object [("w", .scalar (.bool false))]), ("k", .array [.scalar .null])]]

def layersToMerge : Tree := .ofValue (.object [("@jdt.merge", twoLayers)])

/-- The second object finds what the directive in the first has renamed. -/
theorem two_layers_in_turn :
    SameOutcome twoUnder.root ((applyTransform layersToMerge twoUnder.root).exec ⟨twoUnder, []⟩)
      ((forM (Tree.ofValue twoLayers).items fun u => applyTransform u twoUnder.root).exec ⟨twoUnder, []⟩) := by
  have hformed : twoUnder.WellFormed := Document.ofValue_wellFormed (by simp [Value.Keyed, Value.MembersKeyed])
  have hkeyed : (Tree.ofValue twoLayers).Keyed :=
    Tree.keyed_ofValue _ (by simp [twoLayers, Value.Keyed, Value.MembersKeyed, Value.ItemsKeyed, Value.ofString])
  have hliteral : ∀ o ∈ (Tree.ofValue twoLayers).items,
      o.isObject = true ∧ ∀ m ∈ o.members, isDirective m.key = false := by
    decide +kernel
  have hsame : List.Forall₂ Tree.Alike (Tree.ofValue twoLayers).items (Tree.ofValue twoLayers).items :=
    List.forall₂_same.mpr fun _ ho => ⟨rfl, hkeyed.item ho, hkeyed.item ho⟩
  exact merged_in_turn hformed hformed.root_held ⟨_, _, rfl, by decide +kernel⟩ rfl hliteral hsame

end Reshape
