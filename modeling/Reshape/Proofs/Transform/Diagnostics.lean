/-
  Reshape.Proofs.Transform.Diagnostics — what is reported stands in the transform.

  Whoever applies a transform is told where in it a fault lies, or what name or path of it
  was looked for in vain. The work never has the transform itself at hand: it goes on with
  parts of it, with parts of these, and with copies from which the members that are done with
  have been left out. All of them keep their positions, so a report that stands in what a step
  was given stands in the transform (`Run.Points`). A path that is no query is reported without
  a position first, and gets that of the attribute that states it.

  - `Fault.Points`: the fault lies in the transform, at a position that `P` is true of; for
    each check and each step of the work, it fails with such faults only, and warns of names at
    such positions only, if `P` is true everywhere in what it is given.
  - `applyTransform_points`: so does the whole of the work, however deep transforms are nested.
  - `reports_stand_in_transform`: applied to an object, a transform that was read from a text
    reports nothing but where a node or a key of it stands.
-/

import Reshape.Application
import Reshape.Proofs.Json.Placing
import Reshape.Proofs.Transform.Running
import Reshape.Proofs.Transform.Operands

namespace Reshape

variable {P : Option Position → Prop} {α β : Type}

/-! ## Faults -/

structure Fault.Points (P : Option Position → Prop) (f : Fault) : Prop where
  side : f.side = .transform
  position : P f.position

def FaultsPoint (P : Option Position → Prop) (e : Except Fault α) : Prop := ∀ f, e = .error f → f.Points P

namespace FaultsPoint

theorem ok (a : α) : FaultsPoint P (.ok a : Except Fault α) := nofun

theorem error {cause : Cause} {position : Option Position} (h : P position) :
    FaultsPoint P (.error (.inTransform cause position) : Except Fault α) := by
  intro f hf
  cases hf
  exact ⟨rfl, h⟩

theorem bind {e : Except Fault α} {f : α → Except Fault β} (he : FaultsPoint P e)
    (hf : ∀ a, e = .ok a → FaultsPoint P (f a)) : FaultsPoint P (e.bind f) := by
  cases e with
  | error g =>
    intro f' h
    cases h
    exact he g rfl
  | ok a => exact hf a rfl

theorem map {e : Except Fault α} (he : FaultsPoint P e) (f : α → β) : FaultsPoint P (e.map f) := by
  cases e with
  | error g =>
    intro f' h
    cases h
    exact he g rfl
  | ok a => exact ok _

end FaultsPoint

/-! ## Checks -/

theorem checkVerbs_points (verbs : List Verb) {ms : List (Member Tree)} (h : ∀ m ∈ ms, P m.position) :
    FaultsPoint P (checkVerbs verbs ms) := by
  induction ms with
  | nil => exact .ok _
  | cons m rest ih =>
    have hrest := ih fun n hn => h n (List.mem_cons_of_mem _ hn)
    rw [checkVerbs]
    split
    · exact hrest
    · split
      · exact hrest
      · exact .error (h m List.mem_cons_self)

namespace Attributes

theorem collect_points (accepted : List Attribute) (seen : Attributes) {ms : List (Member Tree)}
    (h : ∀ m ∈ ms, P m.position) : FaultsPoint P (collect accepted seen ms) := by
  induction ms generalizing seen with
  | nil => exact .ok _
  | cons m rest ih =>
    have hrest := fun seen => ih seen fun n hn => h n (List.mem_cons_of_mem _ hn)
    rw [collect]
    split
    · exact hrest _
    · split
      · exact hrest _
      · exact .error (h m List.mem_cons_self)

variable {operand t : Tree} {attributes : Attributes} {accepted : List Attribute} {named : Attribute}

theorem ofOperand_points (accepted : List Attribute) (h : operand.Everywhere P) :
    FaultsPoint P (ofOperand accepted operand) := by
  refine (collect_points accepted [] fun m hm => h.key hm).bind fun attributes _ => ?_
  split
  · exact .ok _
  · exact .error h.position

/-- What an attribute is set to is a part of the operand. -/
theorem setting?_everywhere (h : operand.Everywhere P) (hc : collect accepted [] operand.members = .ok attributes)
    (hs : named.setting? attributes = some t) : t.Everywhere P := by
  rcases mem_collect hc (mem_of_setting? hs) with hm | ⟨m, hm, rfl⟩
  · cases hm
  · exact h.member hm

/-- The attributes of an operand are those that its members state. -/
theorem ofOperand_collect (ha : ofOperand accepted operand = .ok attributes) :
    collect accepted [] operand.members = .ok attributes := by
  unfold ofOperand at ha
  cases hc : collect accepted [] operand.members with
  | error f => rw [hc] at ha; cases ha
  | ok found =>
    simp only [hc, Except.bind] at ha
    split at ha
    · exact ha
    · cases ha

end Attributes

theorem pathText_points {path : Tree} (h : P path.position) : FaultsPoint P (pathText path) := by
  unfold pathText
  split
  · exact .ok _
  · exact .error h

namespace Target

variable {operand : Tree} {verb : Verb} {target : Target}

theorem ofOperand?_points (verb : Verb) (h : operand.Everywhere P) :
    FaultsPoint P (Target.ofOperand? verb operand) := by
  refine (Attributes.ofOperand_points _ h).bind fun attributes ha => ?_
  unfold ofAttributes?
  split
  · exact .ok _
  · rename_i path value hp _
    have hpath := Attributes.setting?_everywhere h (Attributes.ofOperand_collect ha) hp
    exact (pathText_points hpath.position).map _
  · exact .error h.position
  · exact .error h.position

/-- The path and the value that go together are parts of the operand. -/
theorem ofOperand?_everywhere (h : operand.Everywhere P) (ht : Target.ofOperand? verb operand = .ok (some target)) :
    P target.pathPosition ∧ target.value.Everywhere P := by
  obtain ⟨attributes, hc, ha⟩ := ofOperand?_eq ht
  unfold ofAttributes? at ha
  split at ha
  · cases ha
  · rename_i path value hp hv
    unfold pathText at ha
    split at ha
    · obtain rfl := Option.some.inj (Except.ok.inj ha)
      exact ⟨(Attributes.setting?_everywhere h hc hp).position, Attributes.setting?_everywhere h hc hv⟩
    · cases ha
  · cases ha
  · cases ha

end Target

/-! ## Steps -/

/-- The step fails only with faults that point so, and warns only of names at such positions. -/
def Run.Points (P : Option Position → Prop) (m : Run α) : Prop :=
  ∀ s, FaultsPoint P (m.exec s).1 ∧
    ∃ more, (m.exec s).2.warnings = s.warnings ++ more ∧ ∀ w ∈ more, P w.position

namespace Run.Points

theorem silent {m : Run α} (hf : ∀ s, FaultsPoint P (m.exec s).1)
    (hw : ∀ s, (m.exec s).2.warnings = s.warnings) : Points P m := fun s =>
  ⟨hf s, [], by rw [hw, List.append_nil], nofun⟩

theorem of_pure (a : α) : Points P (pure a : Run α) := silent (fun _ => .ok a) fun _ => rfl

theorem fail (cause : Cause) {position : Option Position} (h : P position) :
    Points P (fail cause position : Run α) :=
  silent (fun _ => .error h) fun _ => rfl

theorem document : Points P document := silent (fun _ => .ok _) fun _ => rfl

theorem change (c : Change) : Points P (change c) :=
  silent (fun _ => .ok _) fun s => s.warnings_changed c

theorem warn (name : String) {position : Option Position} (h : P position) : Points P (warn name position) :=
  fun s => ⟨.ok _, [⟨name, position⟩], s.warnings_missed _, fun w hw => by
    obtain rfl := List.mem_singleton.mp hw
    exact h⟩

/-- A step that goes on with what a step before has come to. -/
theorem bind_of {m : Run α} {f : α → Run β} (hm : Points P m)
    (hf : ∀ a s s', m.exec s = (.ok a, s') → Points P (f a)) : Points P (m >>= f) := by
  intro s
  obtain ⟨hfault, more, hmore, hwarn⟩ := hm s
  rcases he : m.exec s with ⟨r, mid⟩
  rw [he] at hfault hmore
  cases r with
  | error g =>
    rw [exec_bind_error he]
    exact ⟨fun g' hg => hfault g' (by cases hg; rfl), more, hmore, hwarn⟩
  | ok a =>
    obtain ⟨hfault', later, hlater, hwarn'⟩ := hf a s mid he mid
    rw [exec_bind_ok he]
    refine ⟨hfault', more ++ later, by rw [hlater, hmore, List.append_assoc], fun w hw => ?_⟩
    exact (List.mem_append.mp hw).elim (hwarn w) (hwarn' w)

theorem bind {m : Run α} {f : α → Run β} (hm : Points P m) (hf : ∀ a, Points P (f a)) : Points P (m >>= f) :=
  hm.bind_of fun a _ _ _ => hf a

theorem demand {e : Except Fault α} (h : FaultsPoint P e) : Points P (demand e) :=
  silent (fun s => by rw [exec_demand]; exact h) fun s => by rw [exec_demand]

/-- A check, and what is done when it has been passed. -/
theorem demand_bind {e : Except Fault α} {f : α → Run β} (h : FaultsPoint P e)
    (hf : ∀ a, e = .ok a → Points P (f a)) : Points P (Run.demand e >>= f) :=
  (demand h).bind_of fun a _ _ he => hf a (demand_ok he).1

/-- A path that is no query is reported where the attribute stands that states it. -/
theorem find (node : NodeId) (path : String) {position : Option Position} (h : P position) :
    Points P (find node path position) := by
  refine silent (fun s => ?_) fun s => by rw [exec_find]
  rw [exec_find, Document.matches?]
  cases s.document.query node path with
  | ok found => exact .ok _
  | error malformed =>
    intro f hf
    cases hf
    exact ⟨rfl, h⟩

theorem overwrite (target : NodeId) (t : Tree) {position : Option Position} (h : P position) :
    Points P (overwrite target t position) := by
  refine document.bind fun d => ?_
  split
  · exact fail _ h
  · exact change _

end Run.Points

open Run (Points)

/-! ## Verbs -/

variable {nested : Tree → NodeId → Run Unit} {node : NodeId} {operand t : Tree} {position : Option Position}

namespace Removal

theorem removeSelf_points (node : NodeId) (h : P position) : Points P (removeSelf node position) := by
  refine Points.document.bind fun d => ?_
  split
  · exact .fail _ h
  · exact (Points.change _).bind fun _ => .of_pure _

theorem removeProperty_points (node : NodeId) (name : String) (h : P position) :
    Points P (removeProperty node name position) := by
  refine Points.document.bind fun d => ?_
  split
  · exact (Points.change _).bind fun _ => .of_pure _
  · exact (Points.warn _ h).bind fun _ => .of_pure _

theorem removeAll_points (node : NodeId) (h : P position) (found : List NodeId) :
    Points P (removeAll node position found) := by
  induction found with
  | nil => exact .of_pure _
  | cons target rest ih =>
    show Points P (if target = node then removeSelf node position
      else do Run.change (.detach target); removeAll node position rest)
    split
    · exact removeSelf_points node h
    · exact (Points.change _).bind fun _ => ih

theorem removeFound_points (node : NodeId) (h : operand.Everywhere P) : Points P (removeFound node operand) := by
  refine .demand_bind (Attributes.ofOperand_points _ h) fun attributes ha => ?_
  split
  · exact .fail _ h.position
  · rename_i path hp
    have hpath := (Attributes.setting?_everywhere h (Attributes.ofOperand_collect ha) hp).position
    refine .demand_bind (pathText_points hpath) fun text _ => (Points.find node text hpath).bind fun found => ?_
    split
    · exact (Points.warn text hpath).bind fun _ => removeAll_points node hpath found
    · exact removeAll_points node hpath found

theorem act_points (node : NodeId) (h : operand.Everywhere P) : Points P (act node operand) := by
  unfold act
  split
  · exact removeProperty_points node _ h.position
  · exact removeSelf_points node h.position
  · exact .of_pure _
  · exact removeFound_points node h
  · exact .fail _ h.position

end Removal

namespace Replacement

theorem replaceSelf_points (node : NodeId) (h : operand.Everywhere P) : Points P (replaceSelf node operand) :=
  (Points.overwrite node operand h.position).bind fun _ => .of_pure _

theorem replaceAll_points (node : NodeId) (h : t.Everywhere P) (found : List NodeId) :
    Points P (replaceAll node t found) := by
  induction found with
  | nil => exact .of_pure _
  | cons target rest ih =>
    refine (Points.overwrite target t h.position).bind fun _ => ?_
    split
    · exact .of_pure _
    · exact ih

theorem act_points (node : NodeId) (h : operand.Everywhere P) : Points P (act node operand) := by
  unfold act
  split
  · exact replaceSelf_points node h
  · refine .demand_bind (Target.ofOperand?_points _ h) fun found? hf => ?_
    split
    · exact replaceSelf_points node h
    · obtain ⟨hpath, hvalue⟩ := Target.ofOperand?_everywhere h hf
      exact (Points.find node _ hpath).bind fun found => replaceAll_points node hvalue found

end Replacement

namespace Renaming

theorem renameNode_points (target : NodeId) (name : String) (h : P position) :
    Points P (renameNode target name position) := by
  refine Points.document.bind fun d => ?_
  split
  · exact .change _
  · exact .fail _ h

theorem renamePairs_points (node : NodeId) {pairs : List (Member Tree)}
    (h : ∀ m ∈ pairs, P m.position ∧ m.value.Everywhere P) : Points P (renamePairs node pairs) := by
  induction pairs with
  | nil => exact .of_pure _
  | cons pair rest ih =>
    have hpair := h pair List.mem_cons_self
    have hrest := ih fun m hm => h m (List.mem_cons_of_mem _ hm)
    rw [renamePairs]
    split
    · exact .fail _ hpair.2.position
    · refine Points.document.bind fun d => ?_
      split
      · exact (renameNode_points _ _ hpair.1).bind fun _ => hrest
      · exact (Points.warn _ hpair.1).bind fun _ => hrest

theorem renameAll_points (name : String) (h : P position) (found : List NodeId) :
    Points P (renameAll name position found) := by
  induction found with
  | nil => exact .of_pure _
  | cons target rest ih => exact (renameNode_points target name h).bind fun _ => ih

theorem act_points (node : NodeId) (h : operand.Everywhere P) : Points P (act node operand) := by
  unfold act
  split
  · exact .fail _ h.position
  · refine .demand_bind (Target.ofOperand?_points _ h) fun found? hf => ?_
    split
    · exact (renamePairs_points node fun m hm => ⟨h.key hm, h.member hm⟩).bind fun _ => .of_pure _
    · obtain ⟨hpath, hvalue⟩ := Target.ofOperand?_everywhere h hf
      split
      · exact .fail _ hvalue.position
      · rename_i target name _
        refine (Points.find node _ hpath).bind fun found => ?_
        have hall : Points P (do renameAll name operand.position found; return Flow.proceed) :=
          (renameAll_points name h.position found).bind fun _ => .of_pure _
        split
        · exact (Points.warn _ hpath).bind fun _ => hall
        · exact hall

end Renaming

def PointsWithin (P : Option Position → Prop) (nested : Tree → NodeId → Run Unit) : Prop :=
  ∀ u : Tree, u.Everywhere P → ∀ node, Points P (nested u node)

namespace Merging

theorem mergeOne_points (hN : PointsWithin P nested) (node : NodeId) (ht : t.Everywhere P) (h : P position)
    (target : NodeId) : Points P (mergeOne nested node t position target) := by
  refine Points.document.bind fun d => ?_
  split
  · exact (hN t ht target).bind fun _ => .of_pure _
  · split
    · exact (Points.change _).bind fun _ => .of_pure _
    · exact (Points.overwrite target t h).bind fun _ => .of_pure _

theorem mergeAll_points (hN : PointsWithin P nested) (node : NodeId) (ht : t.Everywhere P) (h : P position)
    (found : List NodeId) : Points P (mergeAll nested node t position found) := by
  induction found with
  | nil => exact .of_pure _
  | cons target rest ih =>
    exact (mergeOne_points hN node ht h target).bind fun _ => ih.bind fun _ => .of_pure _

theorem act_points (hN : PointsWithin P nested) (node : NodeId) (h : operand.Everywhere P) :
    Points P (act nested node operand) := by
  unfold act
  split
  · exact (Points.overwrite node operand h.position).bind fun _ => .of_pure _
  · refine .demand_bind (Target.ofOperand?_points _ h) fun found? hf => ?_
    split
    · exact (hN operand h node).bind fun _ => .of_pure _
    · obtain ⟨hpath, hvalue⟩ := Target.ofOperand?_everywhere h hf
      exact (Points.find node _ hpath).bind fun found => mergeAll_points hN node hvalue h.position found

theorem mergeLiterals_points (node : NodeId) (ms : List (Member Tree)) : Points P (mergeLiterals node ms) := by
  induction ms with
  | nil => exact .of_pure _
  | cons m rest ih =>
    refine Points.document.bind fun d => ?_
    cases d.literalChange? node m with
    | none => exact ih
    | some c => exact (Points.change c).bind fun _ => ih

end Merging

/-! ## The chain -/

theorem Verb.act_points (hN : PointsWithin P nested) (verb : Verb) (node : NodeId) (h : operand.Everywhere P) :
    Points P (verb.act nested node operand) := by
  cases verb with
  | remove => exact Removal.act_points node h
  | replace => exact Replacement.act_points node h
  | rename => exact Renaming.act_points node h
  | merge => exact Merging.act_points hN node h

theorem Verb.actAll_points (hN : PointsWithin P nested) (verb : Verb) (node : NodeId) {operands : List Tree}
    (h : ∀ o ∈ operands, o.Everywhere P) : Points P (verb.actAll nested node operands) := by
  induction operands with
  | nil => exact .of_pure _
  | cons operand rest ih =>
    have hrest := ih fun o ho => h o (List.mem_cons_of_mem _ ho)
    refine (verb.act_points hN node (h operand List.mem_cons_self)).bind fun flow => ?_
    cases flow with
    | halt => exact .of_pure _
    | proceed => exact hrest

theorem descend_points (hN : PointsWithin P nested) (node : NodeId) {ms : List (Member Tree)}
    (h : ∀ m ∈ ms, m.value.Everywhere P) : Points P (descend nested node ms) := by
  induction ms with
  | nil => exact .of_pure _
  | cons m rest ih =>
    have hrest := ih fun n hn => h n (List.mem_cons_of_mem _ hn)
    refine Points.document.bind fun d => ?_
    split
    · exact hrest
    · rename_i child _
      exact (hN m.value (h m List.mem_cons_self) child).bind fun _ => hrest.bind fun _ => .of_pure _

/-- An operand is a member's value of the transform, or a part of one. -/
theorem Verb.operands_everywhere {verb : Verb} (h : t.Everywhere P) (ho : operand ∈ verb.operands t) :
    operand.Everywhere P := by
  obtain ⟨m, hm, rfl | hp⟩ := Verb.mem_operands ho
  · exact h.member hm
  · exact (h.member hm).part hp

theorem Stage.run_points (hN : PointsWithin P nested) (stage : Stage) (h : t.Everywhere P) (node : NodeId) :
    Points P (stage.run nested t node) := by
  cases stage with
  | validation =>
    exact .demand_bind (checkVerbs_points _ fun m hm => h.key hm) fun _ _ => .of_pure _
  | recursion =>
    have hms : ∀ m ∈ nestedTransforms t.members, m.value.Everywhere P := fun m hm =>
      h.member (List.mem_filter.mp hm).1
    exact (descend_points hN node hms).bind fun _ => .of_pure _
  | verb v =>
    rw [Stage.run, Verb.apply_eq]
    exact (v.actAll_points hN node fun o ho => Verb.operands_everywhere h ho).bind fun _ => .of_pure _
  | literals => exact (Merging.mergeLiterals_points node _).bind fun _ => .of_pure _

theorem runStages_points (hN : PointsWithin P nested) (stages : List Stage) (h : t.Everywhere P)
    (node : NodeId) : Points P (runStages nested stages t node) := by
  induction stages generalizing t with
  | nil => exact .of_pure _
  | cons stage rest ih =>
    refine (stage.run_points hN h node).bind fun outcome => ?_
    obtain ⟨flow, done⟩ := outcome
    cases flow with
    | halt => exact .of_pure _
    | proceed => exact ih (h.without done)

/-- However deep transforms are nested, what is reported stands in them. -/
theorem applyWithin_points (depth : Nat) : PointsWithin P (applyWithin depth) := by
  induction depth with
  | zero => exact fun _ _ _ => .of_pure _
  | succ depth ih => exact fun _ h node => runStages_points ih Stage.all h node

theorem applyTransform_points (h : t.Everywhere P) (node : NodeId) : Points P (applyTransform t node) :=
  applyWithin_points (t.height + 1) t h node

/-! ## Loaded transforms -/

namespace Transformation

/-- A node of the loaded transform, or the key of a member, stands there. -/
def Stands (t : Transformation) (position : Option Position) : Prop :=
  ∃ p, position = some p ∧ t.tree.HasPosition (some p)

/-- The faults and warnings of a transform that was read from a text, applied to an object, are all in the
    transform, where a node or a key of it stands. -/
theorem reports_stand_in_transform {t : Transformation} {text : String} (ht : Tree.parse text = .ok t.tree)
    {source : Document} (ho : source.isObject source.root = true) (j : Journal) :
    (∀ f, (t.applyDocument source j).1 = .error f → f.side = .transform ∧ t.Stands f.position) ∧
      ∃ logged, (t.applyDocument source j).2.2.entries = j.entries ++ logged ∧
        ∀ e ∈ logged, e.level = .warning ∧ e.file = j.file .transform ∧ t.Stands e.position := by
  have hplaced := Tree.parse_placed ht
  have hevery : t.tree.Everywhere t.Stands := fun p hp => by
    obtain ⟨q, rfl⟩ := Option.isSome_iff_exists.mp (hplaced p hp)
    exact ⟨q, rfl, hp⟩
  have happly : t.applyTo source = (applyTransform t.tree source.root).exec ⟨source, []⟩ := by
    rw [applyTo, if_pos ho]
    rfl
  obtain ⟨hfault, more, hmore, hwarn⟩ := applyTransform_points hevery source.root ⟨source, []⟩
  rw [← happly] at hfault hmore
  refine ⟨fun f hf => ⟨(hfault f hf).side, (hfault f hf).position⟩,
    more.map fun w => ⟨.warning, w.message, j.transformFile, w.position⟩, ?_, fun e he => ?_⟩
  · show (j.warnAll (t.applyTo source).2.warnings).entries = _
    rw [hmore, Journal.entries_warnAll]
    rfl
  · obtain ⟨w, hw, rfl⟩ := List.mem_map.mp he
    exact ⟨rfl, rfl, hwarn w hw⟩

/-- A transform that, under a key, looks for something in vain and then renames to a number. -/
def misnaming : String := "\x7b'a': \x7b'@jdt.remove': 'z', '@jdt.rename': 1\x7d\x7d"

-- Irreducible, or comparing it with another term would run the reader.
@[irreducible]
def misnamingTree : Tree :=
  match Tree.parse misnaming with
  | .ok t => t
  | .error _ => ⟨none, .object []⟩

theorem misnaming_spells : Tree.parse misnaming = .ok misnamingTree := by
  have hok : (Tree.parse misnaming).isOk = true := by decide +kernel
  unfold misnamingTree
  cases h : Tree.parse misnaming with
  | ok t => rfl
  | error f => rw [h] at hok; cases hok

def misnamingLoaded : Transformation := ⟨misnamingTree, by decide +kernel, none, .indented⟩

def emptyUnderA : Document := .ofValue (.object [("a", .object [])])

/-- What is missed and what is at fault is reported two levels down. -/
theorem misnaming_reports_stand :
    (∃ f, (misnamingLoaded.applyDocument emptyUnderA ⟨none, none, []⟩).1 = .error f ∧
      f.position = some ⟨1, 43⟩ ∧ f.side = .transform ∧ misnamingLoaded.Stands f.position) ∧
    (misnamingLoaded.applyDocument emptyUnderA ⟨none, none, []⟩).2.2.entries.length = 1 ∧
    ∀ e ∈ (misnamingLoaded.applyDocument emptyUnderA ⟨none, none, []⟩).2.2.entries,
      misnamingLoaded.Stands e.position := by
  have hobject : emptyUnderA.isObject emptyUnderA.root = true := by decide +kernel
  have herror : (misnamingLoaded.applyDocument emptyUnderA ⟨none, none, []⟩).1 =
      .error ⟨.operandType .rename .integer, .transform, some ⟨1, 43⟩⟩ := by decide +kernel
  obtain ⟨hfault, logged, hlogged, hwarn⟩ :=
    reports_stand_in_transform (t := misnamingLoaded) misnaming_spells hobject ⟨none, none, []⟩
  refine ⟨⟨_, herror, rfl, hfault _ herror⟩, by decide +kernel, fun e he => ?_⟩
  rw [hlogged] at he
  exact (hwarn e he).2.2

end Transformation

end Reshape
