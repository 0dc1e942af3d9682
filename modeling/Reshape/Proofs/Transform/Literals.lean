/-
  Reshape.Proofs.Transform.Literals — what becomes of the literal members of a transform.

  A literal member that stands over an object on both sides is applied to it in the
  recursion (`Descent`), and done with. The others are brought in at the end, as
  `Value.enter` says, into the object as the verbs have left it.

  - After a chain that has gone through all stages, each literal member was applied to the
    object that stood under its key, or is kept, unless it is passed over: the node is no
    object any more, or one stands under the key that did not when the recursion looked
    (`PassedOver`). What is passed over is kept only if it was there already.
  - A `rename` in between can give the key to another object, and then the member is lost.
-/

import Reshape.Proofs.Document.Entries
import Reshape.Proofs.Transform.Chaining

namespace Reshape

open Document (Local Gentle Framed)

variable {node : NodeId} {s s' mid : Session} {nested : Tree → NodeId → Run Unit} {t : Tree}

/-! ## The recursion -/

/-- The recursion over these members applies the member `m` to the object `child`, from `a` to `b`. -/
inductive Descent (nested : Tree → NodeId → Run Unit) (node : NodeId) :
    List (Member Tree) → Session → Member Tree → Session → NodeId → Session → Prop
  | now {m : Member Tree} {rest : List (Member Tree)} {a b : Session} {child : NodeId} :
      a.document.get? node m.key = some child → a.document.isObject child = true →
      (nested m.value child).exec a = (.ok (), b) → Descent nested node (m :: rest) a m a child b
  | skipping {first m : Member Tree} {rest : List (Member Tree)} {s a b : Session} {child : NodeId} :
      (s.document.get? node first.key).filter s.document.isObject = none →
      Descent nested node rest s m a child b → Descent nested node (first :: rest) s m a child b
  | after {first m : Member Tree} {rest : List (Member Tree)} {s mid a b : Session} {into child : NodeId} :
      (s.document.get? node first.key).filter s.document.isObject = some into →
      (nested first.value into).exec s = (.ok (), mid) →
      Descent nested node rest mid m a child b → Descent nested node (first :: rest) s m a child b

theorem exec_descend_none {m : Member Tree} {rest : List (Member Tree)}
    (hf : (s.document.get? node m.key).filter s.document.isObject = none) :
    (descend nested node (m :: rest)).exec s = (descend nested node rest).exec s := by
  rw [descend, Run.exec_bind_ok (Run.exec_document s), hf]

theorem exec_descend_some {m : Member Tree} {rest : List (Member Tree)} {child : NodeId}
    (hf : (s.document.get? node m.key).filter s.document.isObject = some child) :
    (descend nested node (m :: rest)).exec s =
      (do
        nested m.value child
        let keys ← descend nested node rest
        return m.key :: keys : Run (List String)).exec s := by
  rw [descend, Run.exec_bind_ok (Run.exec_document s), hf]

/-- The keys that the recursion is done with are those of the members that it has applied. -/
theorem descend_done {ms : List (Member Tree)} {done : List String}
    (hrun : (descend nested node ms).exec s = (.ok done, s')) {key : String} (hk : key ∈ done) :
    ∃ m ∈ ms, m.key = key ∧ ∃ a child b, Descent nested node ms s m a child b := by
  induction ms generalizing s done with
  | nil =>
    obtain ⟨rfl, -⟩ := Run.pure_ok hrun
    cases hk
  | cons first rest ih =>
    cases hf : (s.document.get? node first.key).filter s.document.isObject with
    | none =>
      rw [exec_descend_none hf] at hrun
      obtain ⟨m, hm, hmk, a, child, b, hd⟩ := ih hrun hk
      exact ⟨m, List.mem_cons_of_mem _ hm, hmk, a, child, b, .skipping hf hd⟩
    | some into =>
      rw [exec_descend_some hf] at hrun
      obtain ⟨⟨⟩, mid, hnested, hrun⟩ := Run.bind_ok hrun
      obtain ⟨keys, last, hrest, hp⟩ := Run.bind_ok hrun
      obtain ⟨rfl, rfl⟩ := Run.pure_ok hp
      rcases List.mem_cons.mp hk with rfl | hk
      · obtain ⟨hg, ho⟩ := Option.filter_eq_some_iff.mp hf
        exact ⟨first, List.mem_cons_self, rfl, s, into, mid, .now hg ho hnested⟩
      · obtain ⟨m, hm, hmk, a, child, b, hd⟩ := ih hrest hk
        exact ⟨m, List.mem_cons_of_mem _ hm, hmk, a, child, b, .after hf hnested hd⟩

/-- Where nothing stands under any of the keys, the recursion applies no member. -/
theorem Descent.false_of_absent {ms : List (Member Tree)} {m : Member Tree} {a b : Session}
    {child : NodeId} (hd : Descent nested node ms s m a child b)
    (habsent : ∀ n ∈ ms, s.document.get? node n.key = none) : False := by
  induction hd with
  | now hg => rw [habsent _ List.mem_cons_self] at hg; cases hg
  | skipping _ _ ih => exact ih fun n hn => habsent n (List.mem_cons_of_mem _ hn)
  | after hf => rw [habsent _ List.mem_cons_self] at hf; cases hf

/-! ## Bringing in the rest -/

theorem mergeLiterals_cons (node : NodeId) (s : Session) (m : Member Tree) (rest : List (Member Tree)) :
    ∃ mid, mid.document = s.document.bringIn node m ∧ mid.warnings = s.warnings ∧
      (Merging.mergeLiterals node (m :: rest)).exec s = (Merging.mergeLiterals node rest).exec mid := by
  rw [Merging.mergeLiterals, Run.exec_bind_ok (Run.exec_document s)]
  unfold Document.bringIn
  cases hc : s.document.literalChange? node m with
  | none => exact ⟨s, rfl, rfl, rfl⟩
  | some c => exact ⟨s.changed c, rfl, Session.warnings_changed s c, Run.exec_bind_ok (Run.exec_change c s)⟩

/-- Literal members are brought into an object one after the other. -/
theorem mergeLiterals_entries (h : s.document.WellFormed) (ho : s.document.isObject node = true)
    {ms : List (Member Tree)} (hk : ∀ m ∈ ms, m.value.Keyed) :
    ∃ s', (Merging.mergeLiterals node ms).exec s = (.ok (), s') ∧ s'.warnings = s.warnings ∧
      Framed s.document node s'.document ∧ s'.document.isObject node = true ∧
      s'.document.entries node =
        (ms.map fun m => (m.key, m.value.value)).foldl Value.enter (s.document.entries node) := by
  induction ms generalizing s with
  | nil => exact ⟨s, rfl, rfl, .refl h node, ho, rfl⟩
  | cons m rest ih =>
    obtain ⟨mid, hmid, hw, hexec⟩ := mergeLiterals_cons node s m rest
    obtain ⟨hf, ho', he⟩ := h.literal_entries ho (hk m List.mem_cons_self)
    rw [← hmid] at hf ho' he
    have hrest : ∀ n ∈ rest, n.value.Keyed := fun n hn => hk n (List.mem_cons_of_mem _ hn)
    obtain ⟨s', hrun, hw', hf', ho'', he'⟩ := ih hf.wellFormed ho' hrest
    exact ⟨s', hexec.trans hrun, hw'.trans hw, hf.trans h.toLinked hf', ho'', by rw [he', he]; rfl⟩

/-- What is no object stays none. -/
theorem mergeLiterals_elsewhere (h : s.document.WellFormed) (hn : s.document.Holds node)
    (ho : ¬ s.document.isObject node = true) {ms : List (Member Tree)} (hk : ∀ m ∈ ms, m.value.Keyed)
    (hrun : (Merging.mergeLiterals node ms).exec s = (.ok (), s')) :
    ¬ s'.document.isObject node = true := by
  induction ms generalizing s with
  | nil =>
    obtain ⟨-, rfl⟩ := Run.pure_ok hrun
    exact ho
  | cons m rest ih =>
    obtain ⟨mid, hmid, -, hexec⟩ := mergeLiterals_cons node s m rest
    obtain ⟨hwf, hg, hc⟩ := h.literal_elsewhere hn ho (hk m List.mem_cons_self)
    rw [← hmid] at hwf hg hc
    have ho' : ¬ mid.document.isObject node = true := by rwa [Document.isObject, hc]
    have hrest : ∀ n ∈ rest, n.value.Keyed := fun n hn => hk n (List.mem_cons_of_mem _ hn)
    exact ih hwf (hg.holds hn) ho' hrest (hexec ▸ hrun)

/-! ## A chain that goes through -/

def through? (nested : Tree → NodeId → Run Unit) (node : NodeId) : List Stage → Tree → Session → Option Session
  | [], _, s => some s
  | stage :: rest, t, s =>
    match (stage.run nested t node).exec s with
    | (.ok (.proceed, done), mid) => through? nested node rest (t.without done) mid
    | _ => none

theorem through?_cons {stage : Stage} {rest : List Stage}
    (h : through? nested node (stage :: rest) t s = some s') :
    ∃ done mid, (stage.run nested t node).exec s = (.ok (.proceed, done), mid) ∧
      through? nested node rest (t.without done) mid = some s' := by
  rw [through?] at h
  split at h
  · rename_i done mid he
    exact ⟨done, mid, he, h⟩
  · cases h

/-- A chain that goes through ends well. -/
theorem through?_runs {stages : List Stage} (h : through? nested node stages t s = some s') :
    (runStages nested stages t node).exec s = (.ok (), s') := by
  induction stages generalizing s t with
  | nil =>
    obtain rfl := Option.some.inj h
    rfl
  | cons stage rest ih =>
    obtain ⟨done, mid, he, hrest⟩ := through?_cons h
    rw [runStages, Run.exec_bind_ok he]
    exact ih hrest

theorem through?_leads {d₀ : Document} (hN : Obeys nested) (hw : Working d₀ node s) (ht : t.Keyed)
    {stages : List Stage} (h : through? nested node stages t s = some s') :
    Leads (Local d₀ node) s s' := by
  have hl := runStages_leads hN hw ht stages
  rwa [through?_runs h] at hl

/-- No verb is done with any key. -/
theorem verb_run_ok {v : Verb} {flow : Flow} {done : List String}
    (h : ((Stage.verb v).run nested t node).exec s = (.ok (flow, done), s')) : done = [] := by
  obtain ⟨flow', mid, -, hp⟩ := Run.bind_ok h
  exact (Prod.mk.inj (Run.pure_ok hp).1).2

/-- The verbs leave all members for the literal members to be brought in from. -/
theorem through?_verbs {verbs : List Verb}
    (h : through? nested node (verbs.map .verb ++ [.literals]) t s = some s') :
    ∃ last, through? nested node (verbs.map .verb) t s = some last ∧
      (Merging.mergeLiterals node (t.members.filter fun m => !isDirective m.key)).exec last = (.ok (), s') := by
  induction verbs generalizing s with
  | nil =>
    obtain ⟨done, mid, he, hrest⟩ := through?_cons h
    obtain ⟨⟨⟩, last, hm, hp⟩ := Run.bind_ok he
    obtain ⟨-, rfl⟩ := Run.pure_ok hp
    obtain rfl := Option.some.inj hrest
    exact ⟨s, rfl, hm⟩
  | cons v rest ih =>
    obtain ⟨done, mid, he, hrest⟩ := through?_cons h
    obtain rfl := verb_run_ok he
    rw [Tree.without_nil] at hrest
    obtain ⟨last, hl, hm⟩ := ih hrest
    refine ⟨last, ?_, hm⟩
    rw [List.map_cons, through?, he]
    simpa only [Tree.without_nil] using hl

/-- A chain that goes through recurses, lets the verbs act, and brings in what the recursion has left. -/
theorem through?_all (h : through? nested node Stage.all t s = some s') :
    ∃ done mid last, (descend nested node (nestedTransforms t.members)).exec s = (.ok done, mid) ∧
      through? nested node (Verb.all.map .verb) (t.without done) mid = some last ∧
      (Merging.mergeLiterals node ((t.without done).members.filter fun m => !isDirective m.key)).exec last =
        (.ok (), s') := by
  obtain ⟨checked, s₁, hv, h⟩ := through?_cons h
  obtain ⟨⟨⟩, s₂, hd, hp⟩ := Run.bind_ok hv
  obtain ⟨-, rfl⟩ := Run.demand_ok hd
  obtain ⟨hc, rfl⟩ := Run.pure_ok hp
  obtain rfl := (Prod.mk.inj hc).2
  rw [Tree.without_nil] at h
  obtain ⟨done, mid, hr, h⟩ := through?_cons h
  obtain ⟨keys, s₃, hdesc, hp⟩ := Run.bind_ok hr
  obtain ⟨hk, rfl⟩ := Run.pure_ok hp
  obtain rfl := (Prod.mk.inj hk).2
  obtain ⟨last, hl, hm⟩ := through?_verbs h
  exact ⟨_, _, last, hdesc, hl, hm⟩

/-! ## What is kept -/

/-- The node has a member of this key whose value is the member's, or an array that ends with its items. -/
def Kept (d : Document) (node : NodeId) (m : Member Tree) : Prop :=
  ∃ child, d.get? node m.key = some child ∧ (d.value child = m.value.value ∨
    ∃ before items, m.value.value = .array items ∧ d.value child = .array (before ++ items))

/-- The member is not brought in: the node is no object, or what stands under the key and the member's
    value are both objects. -/
def PassedOver (d : Document) (node : NodeId) (m : Member Tree) : Prop :=
  ¬ d.isObject node = true ∨
    ∃ child, d.get? node m.key = some child ∧ d.isObject child = true ∧ m.value.isObject = true

theorem kept_iff {d : Document} {m : Member Tree} :
    Kept d node m ↔ Value.Keeps (Value.member? m.key (d.entries node)) m.value.value := by
  rw [Document.member?_entries]
  unfold Kept Value.Keeps
  cases d.get? node m.key with
  | none => simp
  | some child => simp

theorem passedOver_iff {d : Document} (h : d.Linked) (ho : d.isObject node = true) {m : Member Tree} :
    PassedOver d node m ↔ ∃ old, Value.member? m.key (d.entries node) = some old ∧
      Value.BothObjects old m.value.value := by
  rw [Document.member?_entries]
  unfold PassedOver
  cases d.get? node m.key with
  | none => simp [ho]
  | some child =>
    simp only [ho, not_true, false_or, Option.some.injEq, exists_eq_left', Option.map_some]
    rw [Value.BothObjects, ← h.value_isObject, ← Tree.isObject_iff_value]

/-- Bringing in the literal members keeps each of them but those that it passes over; what stands under
    the key of one that it passes over stays as it was. -/
theorem mergeLiterals_kept (h : s.document.WellFormed) (hn : s.document.Holds node)
    {ms : List (Member Tree)} (hk : ∀ m ∈ ms, m.value.Keyed) (hkeys : (ms.map Member.key).Nodup)
    (hrun : (Merging.mergeLiterals node ms).exec s = (.ok (), s')) {m : Member Tree} (hm : m ∈ ms) :
    Kept s'.document node m ↔ ¬ PassedOver s.document node m ∨ Kept s.document node m := by
  by_cases ho : s.document.isObject node = true
  · obtain ⟨s₁, hrun', -, hf, -, he⟩ := mergeLiterals_entries h ho hk
    obtain rfl : s₁ = s' := (Prod.mk.inj (hrun'.symm.trans hrun)).2
    have hnodup : ((ms.map fun m => (m.key, m.value.value)).map Prod.fst).Nodup := by
      rw [Tree.keys_of_entries]; exact hkeys
    have hlook := Value.member?_foldl_enter m.key (s.document.entries node) hnodup
    rw [Value.member?_of_mem hnodup (Tree.entry_mem hm)] at hlook
    rw [kept_iff, kept_iff, passedOver_iff h.toLinked ho, he, hlook]
    cases hold : Value.member? m.key (s.document.entries node) with
    | none => simp [Value.Keeps]
    | some old =>
      by_cases hb : Value.BothObjects old m.value.value
      · simp [Value.absorb_of_bothObjects hb, hb]
      · simp [Value.keeps_absorb hb, hb]
  · have ho' := mergeLiterals_elsewhere h hn ho hk hrun
    have lost : ∀ {d : Document}, ¬ d.isObject node = true → ¬ Kept d node m := fun hd ⟨_, hg, _⟩ =>
      hd (Document.isObject_of_get? hg)
    have hpassed : PassedOver s.document node m := Or.inl ho
    simp [lost ho, lost ho', hpassed]

/-- After a chain that has gone through, each literal member was applied to the object that stood under its
    key when the recursion came to it, or it is kept: unless it was passed over after the verbs had acted. -/
theorem literal_kept_iff {s s' : Session} {node : NodeId} {t : Tree} (h : s.document.WellFormed)
    (hn : s.document.Holds node) (ht : t.Keyed)
    (hrun : through? applyTransform node Stage.all t s = some s') :
    ∃ done mid last, (descend applyTransform node (nestedTransforms t.members)).exec s = (.ok done, mid) ∧
      through? applyTransform node (Verb.all.map .verb) (t.without done) mid = some last ∧
      ∀ m ∈ t.members, isDirective m.key = false →
        (∃ a child b, Descent applyTransform node (nestedTransforms t.members) s m a child b) ∨
          (Kept s'.document node m ↔ ¬ PassedOver last.document node m ∨ Kept last.document node m) := by
  obtain ⟨done, mid, last, hdesc, hverbs, hlits⟩ := through?_all hrun
  refine ⟨done, mid, last, hdesc, hverbs, fun m hm hlit => ?_⟩
  by_cases hdone : m.key ∈ done
  · obtain ⟨m', hm', hkey, hd⟩ := descend_done hdesc hdone
    have hmem := (List.mem_filter.mp hm').1
    obtain rfl : m' = m := List.inj_on_of_nodup_map ht.keys hmem hm hkey
    exact Or.inl hd
  · have hN := applyTransform_obeys
    have hw := Working.start h hn
    have hnested : ∀ n ∈ nestedTransforms t.members, n.value.Keyed := fun n hn =>
      ht.member (List.mem_filter.mp hn).1
    have hdl := (descend_leads hN hw hnested).toLocal
    rw [hdesc] at hdl
    have hw' := hw.after hdl
    have hlast := hw'.after (through?_leads hN hw' (ht.without done) hverbs)
    have hleft : ∀ n ∈ (t.without done).members.filter fun m => !isDirective m.key, n.value.Keyed :=
      fun n hn => (ht.without done).member (List.mem_filter.mp hn).1
    have hnodup : (((t.without done).members.filter fun m => !isDirective m.key).map Member.key).Nodup :=
      (ht.without done).keys.sublist (List.filter_sublist.map _)
    refine Or.inr (mergeLiterals_kept hlast.wellFormed hlast.holds hleft hnodup hlits ?_)
    rw [List.mem_filter, ht.members_without]
    exact ⟨List.mem_filter.mpr ⟨hm, by simpa using hdone⟩, by simp [hlit]⟩

def named : Document := Document.ofValue (.object [("a", .object [("x", .scalar .null)])])

theorem named_wellFormed : named.WellFormed :=
  Document.ofValue_wellFormed (by simp [Value.Keyed, Value.MembersKeyed])

def renamingOnto : Tree :=
  .ofValue (.object [("@jdt.rename", .object [("a", .ofString "b")]),
    ("b", .object [("y", .scalar .null)])])

def renamedOver : Member Tree := ⟨"b", none, .ofValue (.object [("y", .scalar .null)])⟩

theorem renamedOver_not_applied (a child b) :
    ¬ Descent applyTransform ⟨0⟩ (nestedTransforms renamingOnto.members) ⟨named, []⟩ renamedOver a child b := by
  intro hd
  refine hd.false_of_absent fun n hn => ?_
  have hmem := (List.mem_filter.mp hn).1
  rcases List.mem_cons.mp hmem with rfl | hmem
  · decide
  · rcases List.mem_cons.mp hmem with rfl | hmem
    · decide
    · cases hmem

theorem renamedOver_not_kept :
    ∃ s', through? applyTransform ⟨0⟩ Stage.all renamingOnto ⟨named, []⟩ = some s' ∧
      ¬ Kept s'.document ⟨0⟩ renamedOver := by
  have run : ((through? applyTransform ⟨0⟩ Stage.all renamingOnto ⟨named, []⟩).bind fun s' =>
      (s'.document.get? ⟨0⟩ "b").map fun child =>
        (s'.document.value child).same renamedOver.value.value) = some false := by
    decide +kernel
  obtain ⟨s', hs, hfound⟩ := Option.bind_eq_some_iff.mp run
  obtain ⟨child, hg, hother⟩ := Option.map_eq_some_iff.mp hfound
  refine ⟨s', hs, ?_⟩
  rintro ⟨child', hg', hkept⟩
  obtain rfl : child = child' := Option.some.inj (hg.symm.trans hg')
  rcases hkept with e | ⟨before, items, e, -⟩
  · rw [e] at hother
    revert hother
    decide +kernel
  · rw [renamedOver, Tree.value_ofValue] at e
    cases e

/-- A literal member that is lost was passed over. -/
theorem renamedOver_passed_over :
    ∃ done mid last, (descend applyTransform ⟨0⟩ (nestedTransforms renamingOnto.members)).exec ⟨named, []⟩ =
      (.ok done, mid) ∧
      through? applyTransform ⟨0⟩ (Verb.all.map .verb) (renamingOnto.without done) mid = some last ∧
      PassedOver last.document ⟨0⟩ renamedOver := by
  obtain ⟨s', hs, hlost⟩ := renamedOver_not_kept
  have hkeyed : renamingOnto.Keyed :=
    Tree.keyed_ofValue _ (by simp [Value.Keyed, Value.MembersKeyed, Value.ofString])
  obtain ⟨done, mid, last, hdesc, hverbs, hall⟩ :=
    literal_kept_iff (s := ⟨named, []⟩) named_wellFormed (by decide) hkeyed hs
  refine ⟨done, mid, last, hdesc, hverbs, ?_⟩
  rcases hall renamedOver (.tail _ (.head _)) (by decide +kernel) with ⟨a, child, b, hd⟩ | hiff
  · exact absurd hd (renamedOver_not_applied a child b)
  · rw [hiff, not_or, Classical.not_not] at hlost
    exact hlost.1

/-- The renamed object stands where the literal member should be brought in, and the member is lost. -/
theorem renamed_object_shadows_literal :
    named.WellFormed ∧ named.isObject ⟨0⟩ = true ∧ renamedOver ∈ renamingOnto.members ∧
      isDirective renamedOver.key = false ∧
      ∃ s', through? applyTransform ⟨0⟩ Stage.all renamingOnto ⟨named, []⟩ = some s' ∧
        ¬ Kept s'.document ⟨0⟩ renamedOver ∧
        ∀ a child b, ¬ Descent applyTransform ⟨0⟩ (nestedTransforms renamingOnto.members) ⟨named, []⟩
          renamedOver a child b := by
  obtain ⟨s', hs, hlost⟩ := renamedOver_not_kept
  exact ⟨named_wellFormed, rfl, .tail _ (.head _), by decide +kernel, s', hs, hlost, renamedOver_not_applied⟩

end Reshape
