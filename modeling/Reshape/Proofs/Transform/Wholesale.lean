/-
  Reshape.Proofs.Transform.Wholesale — an object that is replaced as a whole is what it is replaced with.

  Before the verb `replace` has its turn, nested transforms and removals have worked on the
  object. What they did is under the object and is lost with it, since none of it can reach
  the list that the object hangs in: nested work is confined to a part of the object, and a
  removal that takes the object itself out halts (`Removal.act_halts`). What would come after
  `replace` does not come to act. So neither the object as it was nor any other verb or
  literal member of the transform leaves a trace, in the object or outside.

  - `Inward`: a change within reach of a node that leaves alone how the node hangs in its parent.
  - `Leads.framed`: inward changes change what is under the node, and nothing else.
  - `replaced_wholesale`: the object is the value, where it was; all else is as it was.
-/

import Reshape.Proofs.Transform.Literals
import Reshape.Proofs.Transform.Matches

namespace Reshape

open Document (Local Confined Within Framed KeptOutside)
open Run (Always)

/-- A change within reach that neither takes the node out of its parent nor gives it another name there. -/
structure Document.Inward (d₀ : Document) (node : NodeId) (d : Document) (c : Change) : Prop
    extends Local d₀ node d c where
  stays : c ≠ .detach node
  called : ∀ name, c ≠ .rename node name

open Document (Inward)

def TakenOut (node : NodeId) (s s' : Session) : Prop :=
  ∃ before after, s'.events = after ++ .changed (.detach node) :: (before ++ s.events)

variable {d₀ : Document} {node : NodeId} {s s' mid : Session} {nested : Tree → NodeId → Run Unit} {t : Tree}

/-! ## Being taken out -/

namespace TakenOut

theorem changed (node : NodeId) (s : Session) : TakenOut node s (s.changed (.detach node)) := ⟨[], [], rfl⟩

/-- It has happened as well from what was before on. -/
theorem later (h : TakenOut node mid s') (hb : ∃ events, mid.events = events ++ s.events) : TakenOut node s s' := by
  obtain ⟨before, after, he⟩ := h
  obtain ⟨events, hb⟩ := hb
  exact ⟨before ++ events, after, by rw [he, hb, List.append_assoc]⟩

/-- It has happened whatever came after. -/
theorem earlier (h : TakenOut node s mid) (ha : ∃ events, s'.events = events ++ mid.events) : TakenOut node s s' := by
  obtain ⟨before, after, he⟩ := h
  obtain ⟨events, ha⟩ := ha
  exact ⟨before, events ++ after, by rw [ha, he, List.append_assoc]⟩

end TakenOut

/-- Work that has not taken the node out has made no change that does. -/
theorem Leads.stays {P : Document → Change → Prop} (hl : Leads P s s') (hkept : ¬ TakenOut node s s') :
    Leads (fun _ c => c ≠ .detach node) s s' := by
  obtain ⟨events, he, hd, -⟩ := hl
  refine ⟨events, he, hd, Classical.byContradiction fun hno => hkept ?_⟩
  obtain ⟨before, c, after, rfl, hc⟩ := not_along_iff.mp hno
  obtain rfl := Classical.not_not.mp hc
  exact ⟨before, after, by rw [he, List.append_assoc]; rfl⟩

/-! ## Inward changes -/

/-- The site of an inward change is within reach. -/
theorem Document.Confined.site_within {d d' : Document} {c : Change} (h : Confined d node d')
    (hi : Inward d node d' c) : d.Within node (c.site d') := by
  rcases h.site_cases hi.toLocal with hw | ⟨hc | ⟨name, hc⟩, -, -⟩
  · exact hw
  · exact absurd hc hi.stays
  · exact absurd hc (hi.called name)

/-- Inward changes change what is under the node, and nothing else. -/
theorem Leads.framed (hl : Leads (Inward s.document node) s s') (h : s.document.WellFormed) :
    Framed s.document node s'.document := by
  refine (hl.preserves (I := fun d => Confined s.document node d ∧ Framed s.document node d)
    ⟨.refl h node, .refl h node⟩ fun d c hd hi => ⟨hd.1.perform hi.toLocal, ?_⟩).2
  have he := hd.1.wellFormed.perform_edited hi.fits
  refine ⟨hd.2.toGrown.trans he.grown, he.wellFormed, fun {id} hh hu => ?_⟩
  have hsite : id ≠ c.site d := by
    rintro rfl
    exact (hd.1.site_within hi).elim (fun hn => hn hh) hu
  obtain ⟨hcontent, hposition⟩ := he.elsewhere (hd.2.holds hh) hsite
  obtain ⟨hcontent', hposition'⟩ := hd.2.elsewhere hh hu
  exact ⟨hcontent.trans hcontent', hposition.trans hposition'⟩

/-- A node hangs where it did if nothing has changed outside. -/
theorem Document.KeptOutside.slot {d d' : Document} (hk : KeptOutside d node d') (h : d.Linked) :
    d'.slot node = d.slot node := by
  unfold Document.slot
  rw [hk.seat]
  cases hp : d.parent node with
  | none => rfl
  | some owner => simp only [hk.content (h.outside_parent hp)]

/-! ## Nested work -/

/-- Nested work on something inside makes inward changes only. -/
theorem Obeys.inward (hN : Obeys nested) (ht : t.Keyed) (h : Working d₀ node s) {x : NodeId}
    (hx : Inside d₀ node s x) : Leads (Inward d₀ node) s ((nested t x).exec s).2 := by
  refine (hN.keeps h.wellFormed hx.held ht).mono fun d c hl => ?_
  -- The node is no target of such work, being above the node that the work is confined to.
  have htarget : c.target ≠ node := by
    intro e
    have hw : s.document.Within x node := e ▸ hl.within
    exact hw.elim (fun hn => hn h.holds) hx.apart.not_under
  refine ⟨h.confined.localize h.origin.toLinked hx.within hl, ?_, ?_⟩
  · rintro rfl
    exact htarget rfl
  · rintro name rfl
    exact htarget rfl

theorem descend_inward (hN : Obeys nested) (h : Working d₀ node s) {ms : List (Member Tree)}
    (hk : ∀ m ∈ ms, m.value.Keyed) : Leads (Inward d₀ node) s ((descend nested node ms).exec s).2 := by
  induction ms generalizing s with
  | nil => exact .refl _ _
  | cons m rest ih =>
    have hrest := fun n hn => hk n (List.mem_cons_of_mem m hn)
    rw [descend, Run.exec_bind_ok (Run.exec_document s)]
    split
    · exact ih h hrest
    · rename_i child hchild
      obtain ⟨hg, -⟩ := Option.filter_eq_some_iff.mp hchild
      have hx := h.inside (Document.below_of_get? ⟨m.key, hg⟩)
      refine .bind (hN.inward (hk m List.mem_cons_self) h hx) fun _ mid _ hl => ?_
      refine .bind (ih (h.after (hl.mono fun _ _ hi => hi.toLocal)) hrest) fun keys _ _ _ => ?_
      exact .refl _ _

/-- The verbs' operands are left when the recursion is done with some keys. -/
theorem operandOf?_descended (ht : t.Keyed) {done : List String}
    (hrun : (descend nested node (nestedTransforms t.members)).exec s = (.ok done, s')) (v : Verb) :
    operandOf? v (t.without done).members = operandOf? v t.members := by
  have hliteral : ∀ m ∈ t.members, done.contains m.key = true → Verb.ofKey? m.key = none := by
    intro m _ hm
    obtain ⟨n, hn, hkey, -⟩ := descend_done hrun (List.contains_iff_mem.mp hm)
    have hd : isDirective n.key = false := by
      have := (List.mem_filter.mp hn).2
      simp only [Bool.and_eq_true, Bool.not_eq_true'] at this
      exact this.1
    rw [← hkey]
    exact Verb.ofKey?_of_literal (by simpa [isDirective] using hd)
  rw [ht.members_without]
  generalize t.members = ms at hliteral
  induction ms with
  | nil => rfl
  | cons m rest ih =>
    have ih := ih fun n hn => hliteral n (List.mem_cons_of_mem m hn)
    by_cases hd : done.contains m.key = true
    · rw [List.filter_cons_of_neg (by simpa using hd), ih, operandOf?, hliteral m List.mem_cons_self hd,
        if_neg (Option.some_ne_none v).symm]
    · rw [List.filter_cons_of_pos (by simpa using hd), operandOf?, operandOf?, ih]

/-! ## Removals -/

namespace Removal

theorem removeSelf_ok {position : Option Position} {flow : Flow}
    (hrun : (removeSelf node position).exec s = (.ok flow, s')) : TakenOut node s s' := by
  rw [removeSelf, Run.exec_bind_ok (Run.exec_document s)] at hrun
  split at hrun
  · cases hrun
  · obtain ⟨⟨⟩, mid, hchange, hrun⟩ := Run.bind_ok hrun
    obtain ⟨-, rfl⟩ := Run.pure_ok hrun
    cases hchange
    exact .changed node s

theorem removeAll_halts {position : Option Position} {found : List NodeId}
    (hrun : (removeAll node position found).exec s = (.ok .halt, s')) : TakenOut node s s' := by
  induction found generalizing s with
  | nil => cases (Run.pure_ok hrun).1
  | cons target rest ih =>
    rw [removeAll] at hrun
    split at hrun
    · exact removeSelf_ok hrun
    · obtain ⟨⟨⟩, mid, hchange, hrun⟩ := Run.bind_ok hrun
      cases hchange
      exact (ih hrun).later ⟨[.changed (.detach target)], rfl⟩

/-- A removal halts only where it has taken the object itself out. -/
theorem act_halts {operand : Tree} (hrun : (act node operand).exec s = (.ok .halt, s')) : TakenOut node s s' := by
  unfold act at hrun
  split at hrun
  · rw [removeProperty, Run.exec_bind_ok (Run.exec_document s)] at hrun
    split at hrun
    · obtain ⟨⟨⟩, mid, -, hrun⟩ := Run.bind_ok hrun
      cases (Run.pure_ok hrun).1
    · obtain ⟨⟨⟩, mid, -, hrun⟩ := Run.bind_ok hrun
      cases (Run.pure_ok hrun).1
  · exact removeSelf_ok hrun
  · cases (Run.pure_ok hrun).1
  · rw [removeFound] at hrun
    obtain ⟨attributes, s₁, hattributes, hfind⟩ := Run.bind_ok hrun
    obtain ⟨-, rfl⟩ := Run.demand_ok hattributes
    split at hfind
    · cases hfind
    · obtain ⟨text, s₂, htext, hmatched⟩ := Run.bind_ok hfind
      obtain ⟨-, rfl⟩ := Run.demand_ok htext
      obtain ⟨found, s₃, hfound, hall⟩ := Run.bind_ok hmatched
      obtain ⟨-, rfl⟩ := Run.find_ok hfound
      split at hall
      · obtain ⟨⟨⟩, s₄, hwarn, hlast⟩ := Run.bind_ok hall
        cases hwarn
        exact (removeAll_halts hlast).later ⟨[.missed _], rfl⟩
      · exact removeAll_halts hall
  · cases hrun

theorem actAll_halts {operands : List Tree}
    (hrun : (Verb.remove.actAll nested node operands).exec s = (.ok .halt, s')) : TakenOut node s s' := by
  induction operands generalizing s with
  | nil => cases (Run.pure_ok hrun).1
  | cons operand rest ih =>
    rw [Verb.actAll] at hrun
    obtain ⟨flow, mid, hact, hrun⟩ := Run.bind_ok hrun
    cases flow with
    | halt =>
      obtain ⟨-, rfl⟩ := Run.pure_ok hrun
      exact act_halts hact
    | proceed =>
      have hl := act_always (P := fun _ _ => True) (fun _ _ _ => trivial) (fun _ _ => trivial) node operand s
      obtain ⟨events, he, -, -⟩ := hl
      rw [show ((act node operand).exec s).2 = mid from congrArg Prod.snd hact] at he
      exact (ih hrun).later ⟨events, he⟩

theorem actAll_always {P : Document → Change → Prop} (hremove : ∀ d object key, P d (.remove object key))
    (hdetach : ∀ d target, P d (.detach target)) (node : NodeId) (operands : List Tree) :
    Always P (Verb.remove.actAll nested node operands) := by
  induction operands with
  | nil => exact .of_pure _
  | cons operand rest ih =>
    rw [Verb.actAll]
    refine .bind (act_always hremove hdetach node operand) fun flow => ?_
    cases flow with
    | halt => exact .of_pure _
    | proceed => exact ih

/-- Removals that have not taken the object itself out have made inward changes only. -/
theorem actAll_inward (hN : Obeys nested) (h : Working d₀ node s) {operands : List Tree} {flow : Flow}
    (hk : ∀ o ∈ operands, o.Keyed) (hrun : (Verb.remove.actAll nested node operands).exec s = (.ok flow, s'))
    (hkept : ¬ TakenOut node s s') : Leads (Inward d₀ node) s s' := by
  have hlocal := Verb.actAll_leads hN h .remove hk
  have hcalled : Leads (fun _ c => ∀ name, c ≠ .rename node name) s
      ((Verb.remove.actAll nested node operands).exec s).2 :=
    actAll_always (fun _ _ _ => nofun) (fun _ _ => nofun) node operands s
  rw [hrun] at hlocal hcalled
  exact ((hlocal.and hcalled).and (hlocal.stays hkept)).mono fun _ _ hc => ⟨hc.1.1, hc.2, hc.1.2⟩

end Removal

/-! ## Replacing the object -/

/-- A stage that has ended well was the last, or the others have gone on from it. -/
theorem runStages_cons_ok {stage : Stage} {rest : List Stage}
    (hrun : (runStages nested (stage :: rest) t node).exec s = (.ok (), s')) :
    ∃ flow done mid, (stage.run nested t node).exec s = (.ok (flow, done), mid) ∧
      (flow = .halt ∧ s' = mid ∨
        flow = .proceed ∧ (runStages nested rest (t.without done) node).exec mid = (.ok (), s')) := by
  rw [runStages] at hrun
  obtain ⟨⟨flow, done⟩, mid, hstage, hrun⟩ := Run.bind_ok hrun
  refine ⟨flow, done, mid, hstage, ?_⟩
  cases flow with
  | halt => exact .inl ⟨rfl, (Run.pure_ok hrun).2⟩
  | proceed => exact .inr ⟨rfl, hrun⟩

/-- A check of the directives that has passed has changed nothing. -/
theorem runStages_validation_ok {rest : List Stage}
    (hrun : (runStages nested (.validation :: rest) t node).exec s = (.ok (), s')) :
    (runStages nested rest t node).exec s = (.ok (), s') := by
  obtain ⟨flow, done, mid, hstage, hnext⟩ := runStages_cons_ok hrun
  obtain ⟨⟨⟩, mid', hdemand, hpure⟩ := Run.bind_ok hstage
  obtain ⟨-, rfl⟩ := Run.demand_ok hdemand
  obtain ⟨hout, rfl⟩ := Run.pure_ok hpure
  cases hout
  obtain ⟨hno, -⟩ | ⟨-, hrun⟩ := hnext
  · cases hno
  · rwa [Tree.without_nil] at hrun

/-- A recursion that has ended well has gone on without the keys that it was done with. -/
theorem runStages_recursion_ok {rest : List Stage}
    (hrun : (runStages nested (.recursion :: rest) t node).exec s = (.ok (), s')) :
    ∃ done mid, (descend nested node (nestedTransforms t.members)).exec s = (.ok done, mid) ∧
      (runStages nested rest (t.without done) node).exec mid = (.ok (), s') := by
  obtain ⟨flow, done, mid, hstage, hnext⟩ := runStages_cons_ok hrun
  obtain ⟨keys, mid', hdescend, hpure⟩ := Run.bind_ok hstage
  obtain ⟨hout, rfl⟩ := Run.pure_ok hpure
  cases hout
  obtain ⟨hno, -⟩ | ⟨-, hrun⟩ := hnext
  · cases hno
  · exact ⟨done, mid, hdescend, hrun⟩

/-- A verb that has ended well was the last stage, or the others have gone on with the same transform. -/
theorem runStages_verb_ok {v : Verb} {rest : List Stage}
    (hrun : (runStages nested (.verb v :: rest) t node).exec s = (.ok (), s')) :
    ∃ flow mid, (v.apply nested t node).exec s = (.ok flow, mid) ∧
      (flow = .halt ∧ s' = mid ∨ flow = .proceed ∧ (runStages nested rest t node).exec mid = (.ok (), s')) := by
  obtain ⟨flow, done, mid, hstage, hnext⟩ := runStages_cons_ok hrun
  obtain ⟨flow', mid', happly, hpure⟩ := Run.bind_ok hstage
  obtain ⟨hout, rfl⟩ := Run.pure_ok hpure
  cases hout
  rw [Tree.without_nil] at hnext
  exact ⟨flow, mid, happly, hnext⟩

/-- A value that is no array and states no attributes overwrites the object, and the work halts. -/
theorem Replacement.apply_wholesale {v : Tree} (hv : operandOf? .replace t.members = some v)
    (harray : v.isArray = false) (hplain : ∀ m ∈ v.members, isDirective m.key = false) {flow : Flow}
    (hrun : (Verb.replace.apply nested t node).exec s = (.ok flow, s')) :
    flow = .halt ∧ s' = s.changed (.overwrite node v) := by
  have hself : Verb.replace.apply nested t node = act node v := by
    obtain ⟨position, content⟩ := v
    rw [Verb.apply, hv]
    cases content with
    | array items => cases harray
    | _ => rfl
  have hact : (act node v).exec s = (replaceSelf node v).exec s := by
    unfold act
    split
    · rfl
    · have hliteral : ∀ m ∈ v.members, directiveName? m.key = none := fun m hm => by
        simpa [isDirective] using hplain m hm
      rw [Run.exec_bind_ok (Run.exec_demand_ok (Target.ofOperand?_of_literal hliteral .replace) s)]
  rw [hself, hact, replaceSelf] at hrun
  obtain ⟨⟨⟩, mid, hover, hrun⟩ := Run.bind_ok hrun
  obtain ⟨rfl, rfl⟩ := Run.pure_ok hrun
  rw [Run.exec_overwrite] at hover
  split at hover
  · cases hover
  · cases hover
    exact ⟨rfl, rfl⟩

/-- Up to the overwriting there have been inward changes only, and it is the last that happens. -/
theorem replaced_last {v : Tree} (h : s.document.WellFormed) (hn : s.document.Holds node) (ht : t.Keyed)
    (hv : operandOf? .replace t.members = some v) (harray : v.isArray = false)
    (hplain : ∀ m ∈ v.members, isDirective m.key = false)
    (hrun : (applyTransform t node).exec s = (.ok (), s')) (hkept : ¬ TakenOut node s s') :
    ∃ mid, Leads (Inward s.document node) s mid ∧ s' = mid.changed (.overwrite node v) := by
  have hN := applyTransform_obeys
  have hw := Working.start h hn
  rw [applyTransform_eq] at hrun
  -- The recursion works under the object, and its keys are not those of verbs.
  obtain ⟨done, s₁, hdescend, hrun⟩ := runStages_recursion_ok (runStages_validation_ok hrun)
  have hdown := descend_inward hN hw fun m (hm : m ∈ nestedTransforms t.members) =>
    ht.member (List.mem_filter.mp hm).1
  rw [hdescend] at hdown
  obtain ⟨down, hdownEvents, -, -⟩ := id hdown
  have hv' := (operandOf?_descended ht hdescend .replace).trans hv
  -- The removals halt only where they take the object out.
  obtain ⟨flow, s₂, hremovals, hnext⟩ := runStages_verb_ok hrun
  rw [Verb.apply_eq] at hremovals
  obtain ⟨rfl, rfl⟩ | ⟨rfl, hrun⟩ := hnext
  · exact absurd ((Removal.actAll_halts hremovals).later ⟨down, hdownEvents⟩) hkept
  -- The overwriting halts.
  obtain ⟨flow, s₃, hreplace, hnext⟩ := runStages_verb_ok hrun
  obtain ⟨rfl, rfl⟩ := Replacement.apply_wholesale hv' harray hplain hreplace
  obtain ⟨-, rfl⟩ | ⟨hno, -⟩ := hnext
  · have hw' := hw.after (hdown.mono fun _ _ hi => hi.toLocal)
    have hkept' : ¬ TakenOut node s₁ s₂ := fun hout =>
      hkept ((hout.later ⟨down, hdownEvents⟩).earlier ⟨[.changed (.overwrite node v)], rfl⟩)
    have hremoved := Removal.actAll_inward hN hw' (fun o ho => Verb.operands_keyed (ht.without _) ho) hremovals hkept'
    exact ⟨s₂, hdown.trans hremoved, rfl⟩
  · cases hno

/-- If a transform whose `replace` has a plain value is applied with success, and the object was not taken out,
    then overwriting the object with the value was the last that happened to the document. The object is the
    value, hangs where it did under the key that it had, and nothing outside has changed. -/
theorem replaced_wholesale {v : Tree} (h : s.document.WellFormed) (hn : s.document.Holds node) (ht : t.Keyed)
    (hv : operandOf? .replace t.members = some v) (harray : v.isArray = false)
    (hplain : ∀ m ∈ v.members, isDirective m.key = false)
    (hrun : (applyTransform t node).exec s = (.ok (), s')) (hkept : ¬ TakenOut node s s') :
    s'.document.value node = v.value ∧ s'.document.slot node = s.document.slot node ∧
      KeptOutside s.document node s'.document ∧
      ∃ before, s'.events = .changed (.overwrite node v) :: (before ++ s.events) := by
  obtain ⟨mid, hl, rfl⟩ := replaced_last h hn ht hv harray hplain hrun hkept
  obtain ⟨m, hm, -, rfl⟩ := operandOf?_mem hv
  have hk := ht.member hm
  have hframed := hl.framed h
  have hmid := hframed.holds hn
  have hedited := hframed.wellFormed.overwrite_edited hmid hk
  have hall := hframed.trans h.toLinked hedited.framed
  have hout : KeptOutside s.document node (mid.document.replace node m.value) :=
    hall.toGrown.keptOutside h.toLinked hall.wellFormed.toLinked hn fun ho => hall.elsewhere ho.1 ho.2
  refine ⟨congrArg Tree.value (Document.tree_overwrite hframed.wellFormed hmid hk), hout.slot h.toLinked, hout, ?_⟩
  obtain ⟨before, he, -, -⟩ := hl
  exact ⟨before, congrArg _ he⟩

/-- The work has ended well, and no change has taken the node out of its parent. -/
def endsKeeping (node : NodeId) : Except Fault Unit × Session → Bool
  | (.ok (), s) => s.events.all fun
    | .changed (.detach id) => id != node
    | _ => true
  | _ => false

theorem endsKeeping_iff {d : Document} {r : Except Fault Unit × Session} (h : endsKeeping node r = true) :
    ∃ s', r = (.ok (), s') ∧ ¬ TakenOut node ⟨d, []⟩ s' := by
  unfold endsKeeping at h
  split at h
  · rename_i s'
    refine ⟨s', rfl, ?_⟩
    rintro ⟨before, after, he⟩
    have := List.all_eq_true.mp h (.changed (.detach node)) (by rw [he]; simp)
    simp at this
  · cases h

def nestOfTwo : Document :=
  Document.ofValue (.object [("n", .object [("x", .object [("y", .scalar .null)]), ("z", .scalar (.bool true))])])

def everyStage : Tree :=
  .ofValue (.object [("x", .object [("@jdt.rename", .object [("y", .ofString "w")])]), ("lit", .scalar .null),
    ("@jdt.merge", .object [("m", .scalar .null)]), ("@jdt.rename", .object [("x", .ofString "q")]),
    ("@jdt.replace", .object [("v", .array [.scalar .null])]), ("@jdt.remove", .ofString "z")])

/-- The object is renamed in and removed from, and then replaced; the rename, the merge and the literal do nothing. -/
theorem replaced_everyStage :
    ∃ s', (applyTransform everyStage ⟨1⟩).exec ⟨nestOfTwo, []⟩ = (.ok (), s') ∧
      s'.document.value ⟨1⟩ = .object [("v", .array [.scalar .null])] ∧
      s'.document.slot ⟨1⟩ = nestOfTwo.slot ⟨1⟩ ∧ KeptOutside nestOfTwo ⟨1⟩ s'.document := by
  have run : endsKeeping ⟨1⟩ ((applyTransform everyStage ⟨1⟩).exec ⟨nestOfTwo, []⟩) = true := by decide +kernel
  obtain ⟨s', he, hkept⟩ := endsKeeping_iff (d := nestOfTwo) run
  have hformed : nestOfTwo.WellFormed := Document.ofValue_wellFormed (by simp [Value.Keyed, Value.MembersKeyed])
  have hkeyed : everyStage.Keyed :=
    Tree.keyed_ofValue _ (by simp [Value.Keyed, Value.MembersKeyed, Value.ItemsKeyed, Value.ofString])
  have hdecided := replaced_wholesale (v := .ofValue (.object [("v", .array [.scalar .null])])) hformed (by decide)
    hkeyed (by rfl) rfl (by decide +kernel) he hkept
  exact ⟨s', he, hdecided.1, hdecided.2.1, hdecided.2.2.1⟩

end Reshape
