/-
  Reshape.Proofs.Transform.ByPath — a value that is brought to a property by its path, or by its key.

  A transform can say in two ways that a property is to take a value in: by a `merge` with a
  path that finds the property, or by a literal member of the property's key. The first is the
  work of one verb. The second is shared by two stages, the recursion that takes objects on both
  sides and the last stage that takes the rest, and each must leave to the other what is not its
  own. Both bring the value to the node that stands there when the work begins (`bringTo`), and
  do nothing else; so the same is done to the document, with the same verdict and warnings,
  however the value transforms, renames, removes or replaces that very node.

  - `exec_mergingAct`, `exec_literal`: each of the two forms brings the value to the node.
  - `byPath_as_byKey`: they come to the same, also where they are stored in different ways.
-/

import Reshape.Proofs.Json.Parsing
import Reshape.Proofs.Transform.DeepMerging
import Reshape.Proofs.Transform.Independence
import Reshape.Proofs.Transform.Passing

namespace Reshape

variable {nested : Tree → NodeId → Run Unit} {node child : NodeId} {t w : Tree} {s : Session}

/-! ## What both forms come to -/

/-- Brings a tree to a node: an object is transformed by an object, an array takes items behind its
    own, and all else is overwritten. -/
def bringTo (nested : Tree → NodeId → Run Unit) (w : Tree) (child : NodeId) : Run Unit := do
  let d ← Run.document
  if d.isObject child && w.isObject then nested w child
  else if d.isArray child && w.isArray then Run.change (.append child w.items)
  else Run.change (.overwrite child w)

theorem exec_bringTo (nested : Tree → NodeId → Run Unit) (w : Tree) (child : NodeId) (s : Session) :
    (bringTo nested w child).exec s =
      if s.document.isObject child && w.isObject then (nested w child).exec s
      else if s.document.isArray child && w.isArray then (.ok (), s.changed (.append child w.items))
      else (.ok (), s.changed (.overwrite child w)) := by
  rw [bringTo, Run.exec_bind_ok (Run.exec_document s)]
  split
  · rfl
  · split <;> rfl

/-! ## By a path -/

/-- One match of a path, which is not the root, is brought together with the value. -/
theorem exec_mergeOne (hroot : s.document.isRoot child = false) (position : Option Position) :
    (Merging.mergeOne nested node w position child >>= fun _ => pure ()).exec s =
      (bringTo nested w child).exec s := by
  rw [Merging.mergeOne, bind_assoc, Run.exec_bind_ok (Run.exec_document s), exec_bringTo]
  by_cases ho : (s.document.isObject child && w.isObject) = true
  · simp only [ho, if_true, bind_assoc, pure_bind, bind_pure_unit]
  · by_cases ha : (s.document.isArray child && w.isArray) = true
    · simp only [ho, ha, Bool.false_eq_true, if_false, if_true, bind_assoc, pure_bind, bind_pure_unit,
        Run.exec_change]
    · have hover : (Run.overwrite child w position).exec s = (.ok (), s.changed (.overwrite child w)) := by
        rw [Run.exec_overwrite, hroot]
        rfl
      simp only [ho, ha, Bool.false_eq_true, if_false, bind_assoc, pure_bind, bind_pure_unit, hover]

/-- A `merge` whose path has one match, which is not the root, brings the value to the match. -/
theorem exec_mergingAct {operand : Tree} {target : Target} (ho : operand.isObject = true)
    (ht : Target.ofOperand? .merge operand = .ok (some target))
    (hq : s.document.query node target.path = .ok [child]) (hroot : s.document.isRoot child = false) :
    (Merging.act nested node operand >>= fun _ => pure ()).exec s =
      (bringTo nested target.value child).exec s := by
  have hfind : (Run.find node target.path target.pathPosition).exec s = (.ok [child], s) := by
    rw [Run.exec_find, Document.matches?, hq]
  have hall : (Merging.mergeAll nested node target.value operand.position [child] >>= fun _ => pure ()) =
      (Merging.mergeOne nested node target.value operand.position child >>= fun _ => pure () : Run Unit) := by
    simp only [Merging.mergeAll, bind_assoc, pure_bind]
  rw [Merging.act, ho]
  simp only [Bool.not_true, Bool.false_eq_true, if_false, ht, Run.demand, pure_bind, bind_assoc]
  rw [Run.exec_bind_ok hfind, hall, exec_mergeOne hroot]

/-! ### A transform that states one verb -/

/-- A verb's key is a directive of the verb's name. -/
theorem Verb.directiveName?_key (v : Verb) : directiveName? v.key = some v.name := by
  cases v <;> decide +kernel

theorem Verb.ofName?_name (v : Verb) : Verb.ofName? v.name = some v := by
  cases v <;> decide +kernel

theorem Verb.ofKey?_key (v : Verb) : Verb.ofKey? v.key = some v := by
  rw [Verb.ofKey?, v.directiveName?_key]
  exact v.ofName?_name

/-- A transform that states a `merge` with one operand and nothing else. -/
theorem runStages_merge {position : Option Position} {operand : Tree}
    (hm : t.members = [⟨Verb.merge.key, position, operand⟩]) (ho : operand.isObject = true) :
    runStages nested Stage.all t node = (Merging.act nested node operand >>= fun _ => pure ()) := by
  have hstates : t.StatesOnly .merge operand := ⟨_, _, hm, Verb.ofKey?_key .merge⟩
  have harray : operand.isArray = false := by
    obtain ⟨p, content⟩ := operand
    cases content with
    | object members => rfl
    | _ => cases ho
  rw [runStages_only hstates, hstates.operands_eq_singleton harray, Verb.actAll_singleton]
  rfl

/-! ## By a key -/

/-- Steps that do the same from a session do the same when more follows. -/
theorem Run.exec_bind_congr {α β : Type} {m n : Run α} (h : m.exec s = n.exec s) (f : α → Run β) :
    (m >>= f).exec s = (n >>= f).exec s := by
  rw [exec_bind, exec_bind, h]

/-- Without members there is nothing to do. -/
theorem runStages_empty (h : t.members = []) :
    runStages nested (Verb.all.map .verb ++ [.literals]) t node = pure () := by
  have hoperands : ∀ v ∈ Verb.all, v.operands t = [] := fun v _ =>
    Verb.operands_eq_nil fun m hm => by rw [h] at hm; cases hm
  rw [runStages_pass_verbs hoperands, runStages_pass (Stage.passes_literals fun m hm => by rw [h] at hm; cases hm)]
  rfl

section Literal

variable {key : String} {position : Option Position} (hm : t.members = [⟨key, position, w⟩])
  (hkey : directiveName? key = none) (hg : s.document.get? node key = some child)
include hm hkey hg

/-- Of two objects, the one in the transform is done with in the recursion. -/
theorem exec_recursion_objects (ht : t.Keyed) (hc : s.document.isObject child = true) (hw : w.isObject = true) :
    (runStages nested (.recursion :: (Verb.all.map .verb ++ [.literals])) t node).exec s =
      (nested w child).exec s := by
  have hnested : nestedTransforms t.members = [⟨key, position, w⟩] := by
    rw [hm, nestedTransforms, List.filter_cons_of_pos (by simp [isDirective, hkey, hw])]
    rfl
  have hempty : (t.without [key]).members = [] := by
    rw [ht.members_without, hm]
    simp
  have hdescend : (descend nested node [⟨key, position, w⟩]).exec s =
      (do
        nested w child
        let keys ← descend nested node []
        return key :: keys : Run (List String)).exec s :=
    exec_descend_some (Option.filter_eq_some_iff.mpr ⟨hg, hc⟩)
  rw [runStages, Stage.run, hnested, bind_assoc, Run.exec_bind_congr hdescend]
  simp only [descend, bind_assoc, pure_bind, runStages_empty hempty, bind_pure_unit]

/-- What is not two objects is left to the last stage. -/
theorem exec_recursion_others (ho : ¬ (s.document.isObject child && w.isObject) = true) (rest : List Stage) :
    (runStages nested (.recursion :: rest) t node).exec s = (runStages nested rest t node).exec s := by
  by_cases hw : w.isObject = true
  · have hnested : nestedTransforms t.members = [⟨key, position, w⟩] := by
      rw [hm, nestedTransforms, List.filter_cons_of_pos (by simp [isDirective, hkey, hw])]
      rfl
    have hc : s.document.isObject child = false := by simpa [hw] using ho
    have hdescend : (descend nested node [⟨key, position, w⟩]).exec s = (descend nested node []).exec s :=
      exec_descend_none (by rw [hg]; simp [hc])
    rw [runStages, Stage.run, hnested, bind_assoc, Run.exec_bind_congr hdescend]
    simp only [descend, pure_bind, Tree.without_nil]
  · have hnested : nestedTransforms t.members = [] := by
      rw [hm, nestedTransforms, List.filter_cons_of_neg (by simp [hw])]
      rfl
    rw [runStages_pass (Stage.passes_recursion hnested)]

/-- The last stage brings the value to what stands under the key, unless both are objects. -/
theorem exec_literals (ho : ¬ (s.document.isObject child && w.isObject) = true) :
    (runStages nested [.literals] t node).exec s = (bringTo nested w child).exec s := by
  have hliteral : (t.members.filter fun m => !isDirective m.key) = [⟨key, position, w⟩] := by
    rw [hm, List.filter_cons_of_pos (by simp [isDirective, hkey])]
    rfl
  have hchange : s.document.literalChange? node ⟨key, position, w⟩ =
      some (if s.document.isArray child && w.isArray then .append child w.items else .overwrite child w) := by
    simp only [Document.literalChange?, hg, ho]
    split <;> rfl
  rw [runStages, Stage.run, hliteral]
  simp only [Merging.mergeLiterals, bind_assoc, pure_bind, runStages]
  rw [Run.exec_bind_ok (Run.exec_document s), hchange, exec_bringTo, if_neg ho]
  simp only [bind_pure_unit, Run.exec_change]
  split <;> rfl

/-- A transform that is a literal member and nothing else brings its value to what stands under the key. -/
theorem exec_literal (ht : t.Keyed) :
    (runStages nested Stage.all t node).exec s = (bringTo nested w child).exec s := by
  have hplain : ∀ m ∈ t.members, directiveName? m.key = none := fun m hmem => by
    rw [hm] at hmem
    obtain rfl := List.mem_singleton.mp hmem
    exact hkey
  have hoperands : ∀ v ∈ Verb.all, v.operands t = [] := fun v _ =>
    Verb.operands_eq_nil fun m hmem => Verb.ofKey?_of_literal (hplain m hmem)
  have hall : Stage.all = .validation :: .recursion :: (Verb.all.map .verb ++ [.literals]) := rfl
  rw [hall, runStages_pass (Stage.passes_validation (checkVerbs_of_literal hplain))]
  by_cases ho : (s.document.isObject child && w.isObject) = true
  · rw [exec_bringTo, if_pos ho]
    rw [Bool.and_eq_true] at ho
    exact exec_recursion_objects hm hkey hg ht ho.1 ho.2
  · rw [exec_recursion_others hm hkey hg ho, runStages_pass_verbs hoperands]
    exact exec_literals hm hkey hg ho

end Literal

/-! ## The two forms -/

def byPath (path : String) (v : Value) : Value :=
  .object [("@jdt.merge", .object [("@jdt.path", .ofString path), ("@jdt.value", v)])]

def byKey (key : String) (v : Value) : Value := .object [(key, v)]

theorem Tree.members_of_value {ms : List (String × Value)} (h : t.value = .object ms) :
    t.isObject = true ∧ t.members.map (fun m => (m.key, m.value.value)) = ms := by
  have ho : t.isObject = true := Tree.isObject_iff_value.mpr ⟨ms, h⟩
  rw [Tree.value_of_isObject ho] at h
  exact ⟨ho, Value.object.inj h⟩

theorem Tree.string?_of_value {text : String} (h : t.value = .ofString text) : t.string? = some text := by
  obtain ⟨position, content⟩ := t
  cases content with
  | scalar c =>
    simp only [Tree.value, Value.ofString, Value.scalar.injEq] at h
    rw [h]
    rfl
  | _ => simp [Tree.value, Value.ofString] at h

/-- A tree of a single `merge`, whose operand states a path and a value. -/
theorem members_of_byPath {path : String} {v : Value} (h : t.value = byPath path v) :
    ∃ position operand target, t.members = [⟨Verb.merge.key, position, operand⟩] ∧ operand.isObject = true ∧
      Target.ofOperand? .merge operand = .ok (some target) ∧ target.path = path ∧ target.value.value = v := by
  obtain ⟨-, hms⟩ := Tree.members_of_value h
  obtain ⟨m, hm, he⟩ := List.map_eq_singleton_iff.mp hms
  obtain ⟨hk, hoperand⟩ := Prod.mk.inj he
  obtain ⟨ho, hattributes⟩ := Tree.members_of_value hoperand
  obtain ⟨first, rest, hfirst, he₁, hrest⟩ := List.map_eq_cons_iff.mp hattributes
  obtain ⟨second, hsecond, he₂⟩ := List.map_eq_singleton_iff.mp hrest
  obtain ⟨hk₁, hpath⟩ := Prod.mk.inj he₁
  obtain ⟨hk₂, hvalue⟩ := Prod.mk.inj he₂
  have hnames : directiveName? first.key = some "path" ∧ directiveName? second.key = some "value" := by
    rw [hk₁, hk₂]
    decide +kernel
  have hattribute : Attribute.ofName? "path" = some .path ∧ Attribute.ofName? "value" = some .value := by
    decide +kernel
  have htarget : Target.ofOperand? .merge m.value = .ok (some ⟨path, first.value.position, second.value⟩) := by
    have hlist : m.value.members = [first, second] := by rw [hfirst, hsecond]
    simp [Target.ofOperand?, Attributes.ofOperand, hlist, Attributes.collect, hnames.1, hnames.2, hattribute.1,
      hattribute.2, Attributes.put, Target.ofAttributes?, Attribute.setting?, pathText,
      Tree.string?_of_value hpath, Except.bind, Except.map, Option.filter]
  obtain ⟨key, position, operand⟩ := m
  obtain rfl : key = Verb.merge.key := hk.trans (by decide +kernel)
  exact ⟨position, operand, _, hm, ho, htarget, rfl, hvalue⟩

/-- The root is not under any key. -/
theorem Document.WellFormed.isRoot_of_get? {d : Document} (h : d.WellFormed) {owner : NodeId} {key : String}
    (hg : d.get? owner key = some child) : d.isRoot child = false := by
  refine beq_false_of_ne fun e => ?_
  have hp := h.parent_iff.mpr (Document.mem_parts_of_get? hg)
  rw [e, h.root_free] at hp
  cases hp

/-- Where a path finds what stands under a literal key of the root, and nothing else, a value merged by the
    path and the same value under the key come to the same verdict, leave the same value and warn of the same. -/
theorem byPath_as_byKey {source merging literal : Document} {key path : String} {v : Value} {child : NodeId}
    (hs : source.WellFormed) (hkey : isDirective key = false) (hg : source.get? source.root key = some child)
    (hq : source.query source.root path = .ok [child]) (hm : merging.WellFormed) (hl : literal.WellFormed)
    (hmv : merging.rootValue = byPath path v) (hlv : literal.rootValue = byKey key v) :
    let first := (applyTransform (merging.tree merging.root) source.root).exec ⟨source, []⟩
    let second := (applyTransform (literal.tree literal.root) source.root).exec ⟨source, []⟩
    SameVerdict Eq first.1 second.1 ∧ first.2.document.rootValue = second.2.document.rootValue ∧
      first.2.warnings.map Warning.message = second.2.warnings.map Warning.message := by
  have hname : directiveName? key = none := by simpa [isDirective] using hkey
  have hroot := hs.isRoot_of_get? hg
  obtain ⟨position, operand, target, hmembers, ho, htarget, rfl, hvalue⟩ := members_of_byPath hmv
  have hkeyed : target.value.Keyed := by
    obtain ⟨n, hn, hnv⟩ := Target.ofOperand?_value htarget
    have hmem : (⟨Verb.merge.key, position, operand⟩ : Member Tree) ∈ (merging.tree merging.root).members := by
      rw [hmembers]
      exact List.mem_singleton_self _
    exact hnv ▸ ((hm.tree_keyed _).member hmem).member hn
  -- The literal form of the value as the path form has it stored: both bring this tree to the child.
  set t : Tree := ⟨none, .object [⟨key, none, target.value⟩]⟩ with ht
  have htk : t.Keyed := by
    rw [Tree.keyed_iff]
    exact ⟨List.nodup_singleton _, fun part hp => by rwa [List.mem_singleton.mp hp]⟩
  have hsame : (applyTransform (merging.tree merging.root) source.root).exec ⟨source, []⟩ =
      (applyTransform t source.root).exec ⟨source, []⟩ := by
    rw [applyTransform_eq, applyTransform_eq, runStages_merge hmembers ho,
      exec_mergingAct (s := ⟨source, []⟩) ho htarget hq hroot,
      exec_literal (s := ⟨source, []⟩) (t := t) rfl hname hg htk]
  have halike : t.Alike (literal.tree literal.root) := by
    refine ⟨?_, htk, hl.tree_keyed _⟩
    have hlv' : (literal.tree literal.root).value = byKey key v := hlv
    rw [hlv', ht]
    simp [Tree.value, Tree.memberValues_eq, byKey, hvalue]
  obtain ⟨hverdict, S, hS⟩ := halike.applied hs hs rfl
  rw [hsame]
  exact ⟨hverdict, hS.document.rootValue_eq, hS.messages_eq⟩

/-- A value that renames the very object it is brought to, and then looks for something in vain. -/
def selfRenaming : Value :=
  .object [("@jdt.rename", .object [("@jdt.path", .ofString "$"), ("@jdt.value", .ofString "b")]),
    ("@jdt.remove", .ofString "z"), ("y", .scalar (.bool true))]

def objectUnderA : Document := .ofValue (.object [("a", .object [("x", .scalar .null)]), ("c", .array [])])

/-- A document of a value has this value. -/
theorem Document.rootValue_ofValue {v : Value} (h : v.Keyed) : (Document.ofValue v).rootValue = v :=
  (Document.rootValue_ofTree (Tree.keyed_ofValue v h)).trans (Tree.value_ofValue v)

def mergingForm : Document := .ofValue (byPath "$.a" selfRenaming)

def literalForm : Document := .ofValue (byKey "a" selfRenaming)

theorem selfRenaming_byPath_as_byKey :
    let first := (applyTransform (mergingForm.tree mergingForm.root) objectUnderA.root).exec ⟨objectUnderA, []⟩
    let second := (applyTransform (literalForm.tree literalForm.root) objectUnderA.root).exec ⟨objectUnderA, []⟩
    SameVerdict Eq first.1 second.1 ∧ first.2.document.rootValue = second.2.document.rootValue ∧
      first.2.warnings.map Warning.message = second.2.warnings.map Warning.message := by
  have hsource : objectUnderA.WellFormed :=
    Document.ofValue_wellFormed (by simp [Value.Keyed, Value.MembersKeyed, Value.ItemsKeyed])
  have hpath : (byPath "$.a" selfRenaming).Keyed := by
    simp [byPath, selfRenaming, Value.Keyed, Value.MembersKeyed, Value.ofString]
  have hkey : (byKey "a" selfRenaming).Keyed := by
    simp [byKey, selfRenaming, Value.Keyed, Value.MembersKeyed, Value.ofString]
  have hchild : objectUnderA.get? objectUnderA.root "a" = some ⟨1⟩ := by decide +kernel
  have hfound : objectUnderA.query objectUnderA.root "$.a" = .ok [⟨1⟩] := by decide +kernel
  exact byPath_as_byKey hsource (by decide +kernel) hchild hfound (Document.ofValue_wellFormed hpath)
    (Document.ofValue_wellFormed hkey) (Document.rootValue_ofValue hpath) (Document.rootValue_ofValue hkey)

end Reshape
