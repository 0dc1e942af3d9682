/-
  Reshape.Proofs.Transform.DeepMerging — a transform without directives merges.

  In a transform whose objects have no directive keys, down to where arrays begin
  (`Tree.Plain`), no verb acts. The recursion applies each member object to the object
  under its key, and the literal stage brings in the rest. By induction on the transform,
  what both come to is one deep merge of the two values (`plain_merges`): it cannot fail,
  and it notes nothing.

  - `descend_plain`: what the recursion has done to each key, given the same of the members.
-/

import Reshape.Proofs.Transform.Literals

namespace Reshape

open Document (Framed)

/-! ## Transforms without directives -/

namespace Tree

mutual

/-- No object that is reached through object members alone has a directive key. -/
def Plain : Tree → Prop
  | ⟨_, .scalar _⟩ => True
  | ⟨_, .array _⟩ => True
  | ⟨_, .object members⟩ => MembersPlain members
termination_by structural t => t

def MembersPlain : List (Member Tree) → Prop
  | [] => True
  | ⟨key, _, t⟩ :: rest => isDirective key = false ∧ t.Plain ∧ MembersPlain rest
termination_by structural members => members

end

theorem membersPlain_iff {ms : List (Member Tree)} :
    MembersPlain ms ↔ ∀ m ∈ ms, isDirective m.key = false ∧ m.value.Plain := by
  induction ms with
  | nil => simp [MembersPlain]
  | cons m rest ih => simp [MembersPlain, ih, and_assoc]

theorem Plain.member {t : Tree} (h : t.Plain) :
    ∀ m ∈ t.members, isDirective m.key = false ∧ m.value.Plain := by
  obtain ⟨position, content⟩ := t
  cases content with
  | object members => exact membersPlain_iff.mp h
  | _ => exact fun m hm => absurd hm List.not_mem_nil

theorem Plain.directiveName? {t : Tree} (h : t.Plain) :
    ∀ m ∈ t.members, Reshape.directiveName? m.key = none := by
  intro m hm
  simpa [isDirective] using (h.member m hm).1

end Tree

theorem checkVerbs_of_literal {verbs : List Verb} {ms : List (Member Tree)}
    (h : ∀ m ∈ ms, directiveName? m.key = none) : checkVerbs verbs ms = .ok () := by
  induction ms with
  | nil => rfl
  | cons m rest ih =>
    rw [checkVerbs, h m List.mem_cons_self]
    exact ih fun n hn => h n (List.mem_cons_of_mem _ hn)

variable {node : NodeId} {s s' : Session} {nested : Tree → NodeId → Run Unit} {t : Tree}

/-- Verbs that the transform does not state let the chain go on. -/
theorem through?_plain_verbs {verbs : List Verb} {rest : List Stage}
    (h : ∀ m ∈ t.members, directiveName? m.key = none) :
    through? nested node (verbs.map .verb ++ rest) t s = through? nested node rest t s := by
  have hv := fun m hm => Verb.ofKey?_of_literal (h m hm)
  induction verbs with
  | nil => rfl
  | cons v more ih =>
    have hstage : ((Stage.verb v).run nested t node).exec s = (.ok (.proceed, []), s) := by
      rw [Stage.run, Verb.apply_eq, Verb.operands_eq_nil hv]
      rfl
    rw [List.map_cons, List.cons_append, through?, hstage]
    simpa only [Tree.without_nil] using ih

/-! ## Merging -/

/-- From `s` to `s'` the transform was merged into the node, and nothing else happened. -/
structure Merged (t : Tree) (node : NodeId) (s s' : Session) : Prop where
  warnings : s'.warnings = s.warnings
  framed : Framed s.document node s'.document
  value : s'.document.value node = Value.deepMerge (s.document.value node) t.value

def Merges (t : Tree) : Prop :=
  ∀ {s : Session} {node : NodeId}, s.document.WellFormed → s.document.isObject node = true →
    ∃ s', (applyTransform t node).exec s = (.ok (), s') ∧ Merged t node s s'

/-- From `s` to `s'` the recursion merged each member into the object under its key, and is done with it;
    where no object stood, it left the member. -/
structure Descended (ms : List (Member Tree)) (node : NodeId) (done : List String) (s s' : Session) :
    Prop where
  warnings : s'.warnings = s.warnings
  framed : Framed s.document node s'.document
  content : s'.document.content node = s.document.content node
  done_sub : ∀ key ∈ done, key ∈ ms.map Member.key
  same : ∀ key ∉ done,
    Value.member? key (s'.document.entries node) = Value.member? key (s.document.entries node)
  merged : ∀ m ∈ ms, m.key ∈ done → ∃ old, Value.member? m.key (s.document.entries node) = some old ∧
    Value.member? m.key (s'.document.entries node) = some (Value.deepMerge old m.value.value)
  left : ∀ m ∈ ms, m.key ∉ done → ∀ old, Value.member? m.key (s.document.entries node) = some old →
    ¬ ∃ es, old = .object es

/-- A member without an object under its key is left. -/
theorem Descended.skip {m : Member Tree} {rest : List (Member Tree)} {done : List String}
    (h : Descended rest node done s s') (hs : s.document.Linked) (hm : m.key ∉ rest.map Member.key)
    (hf : (s.document.get? node m.key).filter s.document.isObject = none) :
    Descended (m :: rest) node done s s' where
  warnings := h.warnings
  framed := h.framed
  content := h.content
  done_sub key hk := List.mem_cons_of_mem _ (h.done_sub key hk)
  same := h.same
  merged := by
    intro n hn hk
    rcases List.mem_cons.mp hn with rfl | hn
    · exact absurd (h.done_sub _ hk) hm
    · exact h.merged n hn hk
  left := by
    intro n hn hk old hold
    rcases List.mem_cons.mp hn with rfl | hn
    · intro hobj
      rw [Document.member?_entries, Option.map_eq_some_iff] at hold
      obtain ⟨child, hg, rfl⟩ := hold
      rw [hg, Option.filter_eq_none_iff] at hf
      exact hf child rfl ((hs.value_isObject child).mpr hobj)
    · exact h.left n hn hk old hold

/-- A member is merged into the object under its key, and the others as before. -/
theorem Descended.into {m : Member Tree} {rest : List (Member Tree)} {done : List String}
    {child : NodeId} {mid : Session} (hs : s.document.WellFormed)
    (hg : s.document.get? node m.key = some child) (hmid : Merged m.value child s mid)
    (h : Descended rest node done mid s') (hm : m.key ∉ rest.map Member.key) :
    Descended (m :: rest) node (m.key :: done) s s' := by
  obtain ⟨hcontent, hentries⟩ := hmid.framed.entries_of_child hs hg
  have hup : s.document.Under node child := .single (hs.parent_iff.mpr (Document.mem_parts_of_get? hg))
  have hheld : Value.member? m.key (s.document.entries node) = some (s.document.value child) := by
    rw [Document.member?_entries, hg]; rfl
  have hother : ∀ key, key ≠ m.key →
      Value.member? key (mid.document.entries node) = Value.member? key (s.document.entries node) := by
    intro key hne
    rw [hentries, Value.member?_update, if_neg hne]
  have hnot : m.key ∉ done := fun hk => hm (h.done_sub _ hk)
  have hne : ∀ n ∈ rest, n.key ≠ m.key := fun n hn e => hm (e ▸ List.mem_map_of_mem hn)
  refine ⟨h.warnings.trans hmid.warnings, (hmid.framed.up hup).trans hs.toLinked h.framed,
    h.content.trans hcontent, fun key hk => ?_, fun key hk => ?_, fun n hn hk => ?_, fun n hn hk => ?_⟩
  · rcases List.mem_cons.mp hk with rfl | hk
    · exact List.mem_cons_self
    · exact List.mem_cons_of_mem _ (h.done_sub key hk)
  · rw [List.mem_cons, not_or] at hk
    rw [h.same key hk.2, hother key hk.1]
  · rcases List.mem_cons.mp hn with rfl | hn
    · refine ⟨s.document.value child, hheld, ?_⟩
      rw [h.same _ hnot, hentries, Value.member?_update, if_pos rfl, hheld, hmid.value]
      rfl
    · have hd := h.merged n hn ((List.mem_cons.mp hk).resolve_left (hne n hn))
      rwa [hother n.key (hne n hn)] at hd
  · rcases List.mem_cons.mp hn with rfl | hn
    · exact absurd List.mem_cons_self hk
    · have hd := h.left n hn fun hd => hk (List.mem_cons_of_mem _ hd)
      rwa [hother n.key (hne n hn)] at hd

/-- What the recursion comes to, if applying the members merges them. -/
theorem descend_plain {ms : List (Member Tree)} (hm : ∀ m ∈ ms, Merges m.value)
    (hkeys : (ms.map Member.key).Nodup) (h : s.document.WellFormed)
    (ho : s.document.isObject node = true) :
    ∃ done s', (descend applyTransform node ms).exec s = (.ok done, s') ∧
      Descended ms node done s s' := by
  induction ms generalizing s with
  | nil => exact ⟨[], s, rfl, rfl, .refl h node, rfl, nofun, fun _ _ => rfl, nofun, nofun⟩
  | cons m rest ih =>
    rw [List.map_cons, List.nodup_cons] at hkeys
    have hrest : ∀ n ∈ rest, Merges n.value := fun n hn => hm n (List.mem_cons_of_mem m hn)
    cases hf : (s.document.get? node m.key).filter s.document.isObject with
    | none =>
      obtain ⟨done, s', hrun, hd⟩ := ih hrest hkeys.2 h ho
      exact ⟨done, s', (exec_descend_none hf).trans hrun, hd.skip h.toLinked hkeys.1 hf⟩
    | some child =>
      obtain ⟨hg, hco⟩ := Option.filter_eq_some_iff.mp hf
      obtain ⟨mid, hnested, hmid⟩ := hm m List.mem_cons_self h hco
      have ho' : mid.document.isObject node = true := by
        rw [Document.isObject, (hmid.framed.entries_of_child h hg).1]; exact ho
      obtain ⟨done, s', hrun, hd⟩ := ih hrest hkeys.2 hmid.framed.wellFormed ho'
      refine ⟨m.key :: done, s', ?_, .into h hg hmid hd hkeys.1⟩
      rw [exec_descend_some hf, Run.exec_bind_ok hnested, Run.exec_bind_ok hrun]
      rfl

def Tree.entries (t : Tree) : List (String × Value) := t.members.map fun m => (m.key, m.value.value)

theorem Tree.Keyed.entries_nodup (ht : t.Keyed) : (t.entries.map Prod.fst).Nodup := by
  rw [Tree.entries, Tree.keys_of_entries]
  exact ht.keys

/-- What the recursion has left, and what the literal members come to after it, is one deep merge. -/
theorem Descended.entries {done : List String} (ht : t.Keyed) (hp : t.Plain) (hs : s.document.Linked)
    (h : Descended (nestedTransforms t.members) node done s s') :
    (t.entries.filter fun e => !done.contains e.1).foldl Value.enter (s'.document.entries node) =
      Value.deepMembers (s.document.entries node) t.entries ++
        t.entries.filter fun e => (Value.member? e.1 (s.document.entries node)).isNone := by
  have hkeys : (s'.document.entries node).map Prod.fst = (s.document.entries node).map Prod.fst := by
    rw [Document.keys_entries, Document.keys_entries, Document.members_eq_of_content h.content]
  refine Value.foldl_enter_eq_deepMembers (hs.entries_nodup node) ht.entries_nodup hkeys h.same ?_ ?_
  · intro key hk
    obtain ⟨m, hm, rfl⟩ := List.mem_map.mp (h.done_sub key hk)
    obtain ⟨old, hold, hmerged⟩ := h.merged m hm hk
    have hmem : (m.key, m.value.value) ∈ t.entries := Tree.entry_mem (List.mem_filter.mp hm).1
    exact ⟨old, m.value.value, hold, Value.member?_of_mem ht.entries_nodup hmem, hmerged⟩
  · rintro key hk old v hold hv ⟨hobj, hvobj⟩
    obtain ⟨m, hm, e⟩ := List.mem_map.mp (Value.mem_of_member? hv)
    obtain ⟨rfl, rfl⟩ := Prod.mk.inj e
    have hnested : m ∈ nestedTransforms t.members := by
      refine List.mem_filter.mpr ⟨hm, ?_⟩
      rw [(hp.member m hm).1, Tree.isObject_iff_value.mpr hvobj]
      rfl
    exact h.left m hnested hk old hold hobj

/-- A chain without verbs goes through: the recursion, and then what it has left. -/
theorem through?_plain {done : List String} {mid : Session}
    (hp : ∀ m ∈ t.members, directiveName? m.key = none)
    (hdesc : (descend nested node (nestedTransforms t.members)).exec s = (.ok done, mid))
    (hlits : (Merging.mergeLiterals node ((t.without done).members.filter fun m => !isDirective m.key)).exec
      mid = (.ok (), s')) :
    through? nested node Stage.all t s = some s' := by
  have hval : (Stage.validation.run nested t node).exec s = (.ok (.proceed, []), s) := by
    have hd : (Run.demand (checkVerbs Verb.all t.members)).exec s = (.ok (), s) := by
      rw [Run.exec_demand, checkVerbs_of_literal hp]
    exact Run.exec_bind_ok hd
  have hrec : (Stage.recursion.run nested t node).exec s = (.ok (.proceed, done), mid) :=
    Run.exec_bind_ok hdesc
  have hlit : (Stage.literals.run nested (t.without done) node).exec mid = (.ok (.proceed, []), s') :=
    Run.exec_bind_ok hlits
  have hp' : ∀ m ∈ (t.without done).members, directiveName? m.key = none := fun m hm =>
    hp m ((Tree.without_sublist t done).subset hm)
  show through? nested node (.validation :: .recursion :: (Verb.all.map .verb ++ [.literals])) t s = some s'
  rw [through?, hval]
  simp only [Tree.without_nil]
  rw [through?, hrec]
  simp only
  rw [through?_plain_verbs hp', through?, hlit]
  rfl

/-- Applying a plain transform to an object merges it, all the way down. -/
theorem plain_merges (ht : t.Keyed) (hto : t.isObject = true) (hp : t.Plain) : Merges t := by
  induction t using Tree.parts_induction with
  | step t ih =>
    intro s node h ho
    have hms : ∀ m ∈ nestedTransforms t.members, m ∈ t.members ∧ m.value.isObject = true := by
      intro m hm
      obtain ⟨hmem, hobj⟩ := List.mem_filter.mp hm
      exact ⟨hmem, ((Bool.and_eq_true _ _).mp hobj).2⟩
    have hmerges : ∀ m ∈ nestedTransforms t.members, Merges m.value := fun m hm =>
      ih m.value (Tree.mem_parts_of_mem_members (hms m hm).1) (ht.member (hms m hm).1) (hms m hm).2
        (hp.member m (hms m hm).1).2
    have hnodup : ((nestedTransforms t.members).map Member.key).Nodup :=
      ht.keys.sublist (List.filter_sublist.map _)
    obtain ⟨done, mid, hdesc, hd⟩ := descend_plain hmerges hnodup h ho
    have ho' : mid.document.isObject node = true := by rw [Document.isObject, hd.content]; exact ho
    -- All members are literal, so what is left is what the recursion is not done with.
    have hleft : ((t.without done).members.filter fun m => !isDirective m.key) =
        t.members.filter fun m => !done.contains m.key := by
      rw [ht.members_without]
      refine List.filter_eq_self.mpr fun m hm => ?_
      simp [(hp.member m (List.mem_filter.mp hm).1).1]
    have hk : ∀ m ∈ t.members.filter fun m => !done.contains m.key, m.value.Keyed := fun m hm =>
      ht.member (List.mem_filter.mp hm).1
    obtain ⟨s', hlits, hw, hf, ho'', he⟩ := mergeLiterals_entries hd.framed.wellFormed ho' hk
    rw [← hleft] at hlits
    refine ⟨s', ?_, hw.trans hd.warnings, hd.framed.trans h.toLinked hf, ?_⟩
    · rw [applyTransform_eq]
      exact through?_runs (through?_plain hp.directiveName? hdesc hlits)
    · have hpairs : (t.members.filter fun m => !done.contains m.key).map (fun m => (m.key, m.value.value)) =
          t.entries.filter fun e => !done.contains e.1 := by
        rw [Tree.entries, List.filter_map]
        rfl
      rw [hpairs, hd.entries ht hp h.toLinked] at he
      rw [hf.wellFormed.value_of_isObject ho'', he, h.value_of_isObject ho, Tree.value_of_isObject hto]
      simp only [Value.deepMerge]
      rfl

/-- Applying a transform without directives to a document succeeds, notes nothing, and leaves the deep merge
    of the document's value and the transform's. -/
theorem chain_deep_merges {s : Session} {t : Tree} (h : s.document.WellFormed)
    (ho : s.document.isObject s.document.root = true) (ht : t.Keyed) (hto : t.isObject = true)
    (hp : t.Plain) :
    ∃ s', (applyTransform t s.document.root).exec s = (.ok (), s') ∧ s'.warnings = s.warnings ∧
      s'.document.rootValue = Value.deepMerge s.document.rootValue t.value := by
  obtain ⟨s', hrun, hm⟩ := plain_merges ht hto hp h ho
  refine ⟨s', hrun, hm.warnings, ?_⟩
  rw [Document.rootValue, hm.framed.root_eq, hm.value, Document.rootValue]

def additions : Tree := .ofValue (.object [("b", .array []), ("a", .object [("y", .scalar .null)])])

/-- A nested member follows those that are there, and a new one comes last. -/
theorem additions_merged :
    ∃ s', (applyTransform additions named.root).exec ⟨named, []⟩ = (.ok (), s') ∧ s'.warnings = [] ∧
      s'.document.rootValue =
        .object [("a", .object [("x", .scalar .null), ("y", .scalar .null)]), ("b", .array [])] := by
  have hkeyed : additions.Keyed :=
    Tree.keyed_ofValue _ (by simp [Value.Keyed, Value.MembersKeyed, Value.ItemsKeyed])
  have hplain : additions.Plain :=
    ⟨by decide +kernel, trivial, by decide +kernel, ⟨by decide +kernel, trivial, trivial⟩, trivial⟩
  obtain ⟨s', hrun, hw, hv⟩ := chain_deep_merges (s := ⟨named, []⟩) named_wellFormed rfl hkeyed rfl hplain
  exact ⟨s', hrun, hw, hv⟩

end Reshape
