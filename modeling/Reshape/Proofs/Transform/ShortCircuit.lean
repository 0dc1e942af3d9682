/-
  Reshape.Proofs.Transform.ShortCircuit — an object that has lost its place is worked on no further.

  A stage's call gives each operand its turn (`Turn`). A turn that takes the object out of
  its parent or overwrites it as a whole (`Unseated`) halts, and with it the call and the
  whole chain: no later operand and no later stage acts on the object.

  So it is for every call of a stage and every turn in it, except for the turns that merge an
  object onto the object itself (`Merging.OntoSelf`): none of these halts, also where the
  nested transform takes the object out of its parent.
-/

import Reshape.Proofs.Transform.Chaining

namespace Reshape

open Document (Local Gentle)

/-- From the one session to the other, a change took the node from its parent or overwrote it as a whole. -/
def Unseated (node : NodeId) (s s' : Session) : Prop :=
  ∃ before c after, s'.events = after ++ .changed c :: before ++ s.events ∧
    c.Unseats (s.document.after before) node

/-- The call with these operands gives `operand` its turn, which leads from `a` to `b` and says `flow`. -/
inductive Turn (nested : Tree → NodeId → Run Unit) (verb : Verb) (node : NodeId) :
    List Tree → Session → Tree → Session → Flow → Session → Prop
  | now {operand : Tree} {rest : List Tree} {a b : Session} {flow : Flow} :
      (verb.act nested node operand).exec a = (.ok flow, b) →
      Turn nested verb node (operand :: rest) a operand a flow b
  | later {first operand : Tree} {rest : List Tree} {s mid a b : Session} {flow : Flow} :
      (verb.act nested node first).exec s = (.ok .proceed, mid) →
      Turn nested verb node rest mid operand a flow b →
      Turn nested verb node (first :: rest) s operand a flow b

variable {d₀ : Document} {node : NodeId} {s s' mid : Session} {nested : Tree → NodeId → Run Unit} {verb : Verb}
  {operands : List Tree} {operand : Tree} {a b : Session} {flow : Flow}

/-! ## Being unseated -/

theorem unseated_iff {events : List Event} (he : s'.events = events ++ s.events) :
    Unseated node s s' ↔ ¬ Along (fun d c => ¬ c.Unseats d node) s.document events := by
  unfold Unseated
  simp only [not_along_iff, he, List.append_cancel_right_eq, Classical.not_not]

theorem Leads.not_unseated (h : Leads (Gentle d₀ node) s s') : ¬ Unseated node s s' := by
  obtain ⟨events, he, -, ha⟩ := h.mono fun _ _ hg => hg.spares
  exact fun hu => (unseated_iff he).mp hu ha

/-- What happens over two steps happens in one of them. -/
theorem Unseated.split {P Q : Document → Change → Prop} (h : Leads P s mid) (h' : Leads Q mid s')
    (hu : Unseated node s s') : Unseated node s mid ∨ Unseated node mid s' := by
  obtain ⟨first, he, hd, -⟩ := h
  obtain ⟨second, he', -, -⟩ := h'
  have hboth : s'.events = (second ++ first) ++ s.events := by rw [he', he, List.append_assoc]
  rw [unseated_iff hboth, along_append] at hu
  rw [unseated_iff he, unseated_iff he', hd]
  exact Classical.not_and_iff_not_or_not.mp hu

/-! ## Turns -/

/-- A turn that unseats the object halts, unless it merges an object onto the object itself. -/
theorem Verb.act_halts_iff (hN : Obeys nested) (h : Working d₀ node s) (hk : operand.Keyed)
    (hrun : (verb.act nested node operand).exec s = (.ok flow, s')) (hu : Unseated node s s') :
    flow = .halt ↔ ¬ (verb = .merge ∧ Merging.OntoSelf s.document node operand) := by
  constructor
  · rintro rfl ⟨rfl, ho⟩
    cases ho.proceeds hrun
  · intro hno
    have hm := Verb.act_minds hN h verb hk hno
    cases flow with
    | halt => rfl
    | proceed =>
      have hp := hm.proceeds (by rw [hrun])
      rw [hrun] at hp
      exact absurd hu hp.not_unseated

theorem Turn.act (ht : Turn nested verb node operands s operand a flow b) :
    operand ∈ operands ∧ (verb.act nested node operand).exec a = (.ok flow, b) := by
  induction ht with
  | now hrun => exact ⟨List.mem_cons_self, hrun⟩
  | later _ _ ih => exact ⟨List.mem_cons_of_mem _ ih.1, ih.2⟩

/-- A turn comes after work on the object. -/
theorem Turn.working (hN : Obeys nested) (ht : Turn nested verb node operands s operand a flow b)
    (hk : ∀ o ∈ operands, o.Keyed) (h : Working d₀ node s) : Working d₀ node a := by
  induction ht with
  | now hrun => exact h
  | later hrun _ ih =>
    have hl := Verb.act_leads hN h verb (hk _ List.mem_cons_self)
    rw [hrun] at hl
    exact ih (fun o ho => hk o (List.mem_cons_of_mem _ ho)) (h.after hl)

/-- A turn that halts is the last one. -/
theorem Turn.last (ht : Turn nested verb node operands s operand a .halt b) :
    (verb.actAll nested node operands).exec s = (.ok .halt, b) := by
  generalize hf : Flow.halt = flow at ht
  induction ht with
  | now hrun =>
    subst hf
    rw [Verb.actAll, Run.exec_bind_ok hrun]
    rfl
  | later hrun _ ih =>
    rw [Verb.actAll, Run.exec_bind_ok hrun]
    exact ih hf

/-- If a call unseats the object, one of its turns does. -/
theorem Verb.actAll_unseated (hN : Obeys nested) (h : Working d₀ node s) (hk : ∀ o ∈ operands, o.Keyed)
    (hrun : (verb.actAll nested node operands).exec s = (.ok flow, s')) (hu : Unseated node s s') :
    ∃ operand a f b, Turn nested verb node operands s operand a f b ∧ Unseated node a b := by
  induction operands generalizing s with
  | nil =>
    obtain ⟨-, rfl⟩ := Run.pure_ok hrun
    exact absurd hu (Leads.refl (Gentle d₀ node) s').not_unseated
  | cons operand rest ih =>
    obtain ⟨f, mid, hact, hrest⟩ := Run.bind_ok hrun
    have hrestk := fun o ho => hk o (List.mem_cons_of_mem operand ho)
    have hl := Verb.act_leads hN h verb (hk operand List.mem_cons_self)
    rw [hact] at hl
    cases f with
    | halt =>
      obtain ⟨-, rfl⟩ := Run.pure_ok hrest
      exact ⟨operand, s, .halt, _, .now hact, hu⟩
    | proceed =>
      have hl' := Verb.actAll_leads hN (h.after hl) verb hrestk
      rw [hrest] at hl'
      rcases hu.split hl hl' with hu | hu
      · exact ⟨operand, s, .proceed, mid, .now hact, hu⟩
      · obtain ⟨o, a, f, b, ht, hub⟩ := ih (h.after hl) hrestk hrest hu
        exact ⟨o, a, f, b, .later hact ht, hub⟩

/-! ## Calls -/

/-- A call that unseats the object does so in a turn of a verb. A turn that unseats the object halts, unless
    it merges an object onto the object itself; then nothing later acts on the object, neither an operand
    of the same call nor another stage of the chain. -/
theorem short_circuit {s s' : Session} {node : NodeId} {t : Tree} {stage : Stage} {flow : Flow}
    {done : List String} (h : s.document.WellFormed) (hn : s.document.Holds node) (ht : t.Keyed)
    (hrun : (stage.run applyTransform t node).exec s = (.ok (flow, done), s')) (hu : Unseated node s s') :
    ∃ verb, stage = .verb verb ∧
      (∃ operand a f b, Turn applyTransform verb node (verb.operands t) s operand a f b ∧ Unseated node a b) ∧
      ∀ operand a f b, Turn applyTransform verb node (verb.operands t) s operand a f b → Unseated node a b →
        (f = .halt ↔ ¬ (verb = .merge ∧ Merging.OntoSelf a.document node operand)) ∧
        (f = .halt → flow = .halt ∧ b = s' ∧
          ∀ rest, (runStages applyTransform (stage :: rest) t node).exec s = (.ok (), s')) := by
  have hN := applyTransform_obeys
  have hw := Working.start h hn
  by_cases hv : ∃ verb, stage = .verb verb
  · obtain ⟨verb, rfl⟩ := hv
    have hk : ∀ o ∈ verb.operands t, o.Keyed := fun o ho => Verb.operands_keyed ht ho
    have hrun' := hrun
    rw [Stage.run, Verb.apply_eq] at hrun'
    obtain ⟨f₀, mid, hall, hp⟩ := Run.bind_ok hrun'
    obtain ⟨hfd, rfl⟩ := Run.pure_ok hp
    obtain ⟨rfl, rfl⟩ := Prod.mk.inj hfd
    refine ⟨verb, rfl, Verb.actAll_unseated hN hw hk hall hu, fun operand a f b hturn hua => ⟨?_, ?_⟩⟩
    · obtain ⟨hmem, hact⟩ := hturn.act
      exact Verb.act_halts_iff hN (hturn.working hN hk hw) (hk operand hmem) hact hua
    · rintro rfl
      have hlast := hturn.last
      rw [hall] at hlast
      obtain ⟨hflow, rfl⟩ := Prod.mk.inj hlast
      obtain rfl := Except.ok.inj hflow
      exact ⟨rfl, rfl, fun rest => by rw [runStages, Run.exec_bind_ok hrun]; rfl⟩
  · have hg := Stage.run_gentle hN hw ht stage fun verb e => absurd ⟨verb, e⟩ hv
    rw [hrun] at hg
    exact absurd hu hg.not_unseated

def nest : Document := Document.ofValue (.object [("n", .object [("x", .scalar .null)])])

theorem nest_wellFormed : nest.WellFormed :=
  Document.ofValue_wellFormed (by simp [Value.Keyed, Value.MembersKeyed])

theorem nest_unseated (d : Document) : Unseated ⟨1⟩ ⟨nest, []⟩ ⟨d, [.changed (.detach ⟨1⟩)]⟩ :=
  ⟨[], .detach ⟨1⟩, [], rfl, Or.inr ⟨⟨0⟩, rfl, by decide +kernel⟩⟩

def leavesParent (flow : Flow) (node : NodeId) : Except Fault (Flow × List String) × Session → Bool
  | (.ok (said, []), ⟨_, [.changed (.detach id)]⟩) => said == flow && id == node
  | _ => false

theorem leavesParent_iff {r : Except Fault (Flow × List String) × Session} :
    leavesParent flow node r = true ↔ ∃ d, r = (.ok (flow, []), ⟨d, [.changed (.detach node)]⟩) := by
  constructor
  · intro h
    unfold leavesParent at h
    split at h
    · rename_i d id
      obtain ⟨rfl, rfl⟩ : _ = flow ∧ id = node := by simpa using h
      exact ⟨d, rfl⟩
    · cases h
  · rintro ⟨d, rfl⟩
    simp [leavesParent]

def removalOfSelf : Tree := .ofValue (.object [("@jdt.remove", .scalar (.bool true))])

/-- The object is taken out of its parent, and nothing later acts on it. -/
theorem removal_of_self_ends_work :
    ∃ s', ((Stage.verb .remove).run applyTransform removalOfSelf ⟨1⟩).exec ⟨nest, []⟩ = (.ok (.halt, []), s') ∧
      ∀ rest, (runStages applyTransform (.verb .remove :: rest) removalOfSelf ⟨1⟩).exec ⟨nest, []⟩ =
        (.ok (), s') := by
  have run : leavesParent .halt ⟨1⟩
      (((Stage.verb .remove).run applyTransform removalOfSelf ⟨1⟩).exec ⟨nest, []⟩) = true := by
    decide +kernel
  obtain ⟨d, he⟩ := leavesParent_iff.mp run
  have hkeyed : removalOfSelf.Keyed := Tree.keyed_ofValue _ (by simp [Value.Keyed, Value.MembersKeyed])
  obtain ⟨verb, hv, ⟨operand, a, f, b, hturn, hub⟩, hall⟩ :=
    short_circuit nest_wellFormed (by decide) hkeyed he (nest_unseated d)
  obtain ⟨hiff, hlast⟩ := hall operand a f b hturn hub
  have hno : ¬ (verb = .merge ∧ Merging.OntoSelf a.document ⟨1⟩ operand) := by
    rintro ⟨rfl, -⟩
    cases hv
  exact ⟨_, he, (hlast (hiff.mpr hno)).2.2⟩

/-- A transform that merges into the object a transform that removes the object. -/
def removalOntoSelf : Tree :=
  .ofValue (.object [("@jdt.merge", .object [("@jdt.path", .ofString "$"),
    ("@jdt.value", .object [("@jdt.remove", .scalar (.bool true))])])])

/-- The nested transform takes the object out of its parent, and the call says `proceed`. -/
theorem merge_onto_itself_proceeds :
    nest.WellFormed ∧ nest.isObject ⟨1⟩ = true ∧
      ∃ s', ((Stage.verb .merge).run applyTransform removalOntoSelf ⟨1⟩).exec ⟨nest, []⟩ =
          (.ok (.proceed, []), s') ∧
        Unseated ⟨1⟩ ⟨nest, []⟩ s' := by
  have run : leavesParent .proceed ⟨1⟩
      (((Stage.verb .merge).run applyTransform removalOntoSelf ⟨1⟩).exec ⟨nest, []⟩) = true := by
    decide +kernel
  obtain ⟨d, he⟩ := leavesParent_iff.mp run
  exact ⟨nest_wellFormed, rfl, _, he, nest_unseated d⟩

end Reshape
