/-
  Reshape.Proofs.Transform.Likeness — two runs that keep in step.

  Run from alike sessions, with alike trees and with counterparts for nodes, a step of the
  work comes to the same verdict twice, with counterparts for what it finds, and leaves alike
  sessions again (`InStep`). The pairing may have grown by then: what was paired before stays
  paired, so that whatever a step has found or been given can be used after other steps.

  - `InStep.bind` puts steps in a row; each step of the verbs and of the chain then has one
    lemma, and a loop is followed by induction on the pairs that it goes through.
  - `applyWithin_inStep`: so does the whole work, by induction on the depth of nesting.
-/

import Reshape.Proofs.Document.Likeness
import Reshape.Proofs.Transform.Running
import Reshape.Proofs.Transform.Depth

namespace Reshape

open Run (document change warn fail demand)

variable {α β α' β' : Type} {R S : Pairing}

/-! ## Verdicts -/

structure Fault.Alike (f g : Fault) : Prop where
  cause : f.cause = g.cause
  side : f.side = g.side

/-- Either both are right, and related, or both are faults and alike. -/
inductive SameVerdict (P : α → β → Prop) : Except Fault α → Except Fault β → Prop
  | ok {x : α} {y : β} : P x y → SameVerdict P (.ok x) (.ok y)
  | error {f g : Fault} : f.Alike g → SameVerdict P (.error f) (.error g)

theorem SameVerdict.bind {P : α → β → Prop} {Q : α' → β' → Prop} {x : Except Fault α} {y : Except Fault β}
    (h : SameVerdict P x y) {f : α → Except Fault α'} {g : β → Except Fault β'}
    (hf : ∀ a b, P a b → SameVerdict Q (f a) (g b)) : SameVerdict Q (x.bind f) (y.bind g) := by
  cases h with
  | ok hxy => exact hf _ _ hxy
  | error hfg => exact .error hfg

theorem SameVerdict.fail (cause : Cause) (p q : Option Position) {P : α → β → Prop} :
    SameVerdict P (.error (.inTransform cause p)) (.error (.inTransform cause q)) :=
  .error ⟨rfl, rfl⟩

/-! ## Sessions -/

structure Session.Alike (R : Pairing) (s u : Session) : Prop where
  document : s.document.Alike R u.document
  warnings : s.warnings.map Warning.name = u.warnings.map Warning.name

/-- From alike sessions the steps come to one verdict and leave alike sessions. Nothing is unpaired by that,
    and the results are related by the pairing as it is then. -/
def InStep (R : Pairing) (Q : Pairing → α → β → Prop) (m : Run α) (n : Run β) : Prop :=
  ∀ s u, Session.Alike R s u → ∃ S, R ≤ S ∧ Session.Alike S (m.exec s).2 (n.exec u).2 ∧
    SameVerdict (Q S) (m.exec s).1 (n.exec u).1

abbrev Equal (_ : Pairing) (x y : α) : Prop := x = y

namespace InStep

variable {P : Pairing → α → β → Prop} {Q : Pairing → α' → β' → Prop}

theorem of_pure {x : α} {y : β} (h : P R x y) : InStep R P (pure x) (pure y) :=
  fun _ _ hs => ⟨R, le_refl R, hs, .ok h⟩

theorem fail (cause : Cause) (p q : Option Position) : InStep R P (fail cause p) (fail cause q) :=
  fun _ _ hs => ⟨R, le_refl R, hs, .fail cause p q⟩

theorem demand {P : α → β → Prop} {x : Except Fault α} {y : Except Fault β} (h : SameVerdict P x y) :
    InStep R (fun _ => P) (demand x) (demand y) := fun s u hs => by
  rw [Run.exec_demand, Run.exec_demand]
  exact ⟨R, le_refl R, hs, h⟩

theorem warn (name : String) (p q : Option Position) : InStep R Equal (warn name p) (warn name q) := by
  intro s u hs
  refine ⟨R, le_refl R, ⟨hs.document, ?_⟩, .ok rfl⟩
  show (s.missed ⟨name, p⟩).warnings.map Warning.name = (u.missed ⟨name, q⟩).warnings.map Warning.name
  rw [Session.warnings_missed, Session.warnings_missed, List.map_append, List.map_append, hs.warnings]
  rfl

theorem change {c c' : Change} (hc : c.Alike R c') : InStep R Equal (change c) (change c') := by
  intro s u hs
  obtain ⟨S, hle, hd⟩ := hs.document.perform hc
  refine ⟨S, hle, ⟨hd, ?_⟩, .ok rfl⟩
  show (s.changed c).warnings.map Warning.name = (u.changed c').warnings.map Warning.name
  rw [Session.warnings_changed, Session.warnings_changed, hs.warnings]

theorem bind {m : Run α} {n : Run β} (hm : InStep R P m n) {f : α → Run α'} {g : β → Run β'}
    (hf : ∀ S x y, R ≤ S → P S x y → InStep S Q (f x) (g y)) : InStep R Q (m >>= f) (n >>= g) := by
  intro s u hs
  obtain ⟨S, hle, hS, hv⟩ := hm s u hs
  rcases hr : m.exec s with ⟨x, s'⟩
  rcases hr' : n.exec u with ⟨y, u'⟩
  rw [hr, hr'] at hv hS
  cases hv with
  | ok hxy =>
    rw [Run.exec_bind_ok hr, Run.exec_bind_ok hr']
    obtain ⟨T, hle', hT⟩ := hf S _ _ hle hxy s' u' hS
    exact ⟨T, le_trans hle hle', hT⟩
  | error hfg =>
    rw [Run.exec_bind_error hr, Run.exec_bind_error hr']
    exact ⟨S, hle, hS, .error hfg⟩

/-- What is done next may depend on the documents as they stand. -/
theorem document {f g : Document → Run α'} {Q : Pairing → α' → α' → Prop}
    (h : ∀ d e, Document.Alike R d e → InStep R Q (f d) (g e)) :
    InStep R Q (document >>= f) (document >>= g) := by
  intro s u hs
  rw [Run.exec_bind_ok (Run.exec_document s), Run.exec_bind_ok (Run.exec_document u)]
  exact h s.document u.document hs.document s u hs

/-- The pairing may be relied on to pair no node with two. -/
theorem one_one {m : Run α} {n : Run β}
    (h : (∀ {a b a' b'}, R a b → R a' b' → (a = a' ↔ b = b')) → InStep R P m n) : InStep R P m n :=
  fun s u hs => h hs.document.one_one s u hs

end InStep

/-! ## Operands -/

namespace Attributes

abbrev Alike (x y : Attributes) : Prop := List.Forall₂ (fun p q => p.1 = q.1 ∧ p.2.Alike q.2) x y

variable {x y : Attributes} (h : x.Alike y)
include h

theorem setting?_alike (named : Attribute) :
    Option.Rel Tree.Alike (named.setting? x) (named.setting? y) := by
  induction h with
  | nil => exact .none
  | @cons p q _ _ hpq _ ih =>
    obtain ⟨a, t⟩ := p
    obtain ⟨_, u⟩ := q
    obtain ⟨rfl, htu⟩ := hpq
    rw [Attribute.setting?, Attribute.setting?]
    by_cases e : a = named
    · rw [if_pos e, if_pos e]; exact .some htu
    · rw [if_neg e, if_neg e]; exact ih

theorem put_alike (named : Attribute) {t u : Tree} (htu : t.Alike u) :
    Alike (put named t x) (put named u y) := by
  induction h with
  | nil => exact .cons ⟨rfl, htu⟩ .nil
  | @cons p q _ _ hpq hrest ih =>
    obtain ⟨a, v⟩ := p
    obtain ⟨_, w⟩ := q
    obtain ⟨rfl, hvw⟩ := hpq
    rw [put, put]
    by_cases e : a = named
    · rw [if_pos e, if_pos e]; exact .cons ⟨rfl, htu⟩ hrest
    · rw [if_neg e, if_neg e]; exact .cons ⟨rfl, hvw⟩ ih

theorem collect_alike (accepted : List Attribute) {ms ns : List (Member Tree)}
    (hm : List.Forall₂ (Member.Alike Tree.Alike) ms ns) :
    SameVerdict Alike (collect accepted x ms) (collect accepted y ns) := by
  induction hm generalizing x y with
  | nil => exact .ok h
  | @cons m n _ _ hmn _ ih =>
    rw [collect, collect, ← hmn.key]
    cases directiveName? m.key with
    | none => exact ih h
    | some name =>
      simp only
      cases (Attribute.ofName? name).filter accepted.contains with
      | none => exact .fail _ _ _
      | some named => exact ih (put_alike h named hmn.value)

omit h in
theorem ofOperand_alike (accepted : List Attribute) {t u : Tree} (htu : t.Alike u) :
    SameVerdict Alike (ofOperand accepted t) (ofOperand accepted u) := by
  refine (collect_alike .nil accepted htu.members).bind fun x y hxy => ?_
  have hempty : x.isEmpty = y.isEmpty := by cases hxy <;> rfl
  rw [hempty, hxy.length_eq, htu.members.length_eq]
  split
  · exact .ok hxy
  · exact .fail _ _ _

end Attributes

theorem pathText_alike {t u : Tree} (h : t.Alike u) : SameVerdict Eq (pathText t) (pathText u) := by
  rw [pathText, pathText, h.string?_eq]
  cases u.string? with
  | none => exact .fail _ _ _
  | some text => exact .ok rfl

namespace Target

structure Alike (x y : Target) : Prop where
  path : x.path = y.path
  value : x.value.Alike y.value

theorem ofAttributes?_alike (verb : Verb) {x y : Attributes} (h : x.Alike y) (t u : Tree) :
    SameVerdict (Option.Rel Alike) (ofAttributes? verb x t) (ofAttributes? verb y u) := by
  have hp := Attributes.setting?_alike h .path
  have hv := Attributes.setting?_alike h .value
  unfold ofAttributes?
  generalize Attribute.path.setting? x = p, Attribute.path.setting? y = p' at hp
  generalize Attribute.value.setting? x = v, Attribute.value.setting? y = v' at hv
  cases hp with
  | none =>
    cases hv with
    | none => exact .ok .none
    | some _ => exact .fail _ _ _
  | some hp =>
    cases hv with
    | none => exact .fail _ _ _
    | some hv =>
      refine (pathText_alike hp).bind fun text text' he => ?_
      exact .ok (.some ⟨he, hv⟩)

theorem ofOperand?_alike (verb : Verb) {t u : Tree} (h : t.Alike u) :
    SameVerdict (Option.Rel Alike) (ofOperand? verb t) (ofOperand? verb u) :=
  (Attributes.ofOperand_alike _ h).bind fun _ _ hxy => ofAttributes?_alike verb hxy t u

end Target

theorem operandOf?_alike (verb : Verb) {ms ns : List (Member Tree)}
    (h : List.Forall₂ (Member.Alike Tree.Alike) ms ns) :
    Option.Rel Tree.Alike (operandOf? verb ms) (operandOf? verb ns) := by
  induction h with
  | nil => exact .none
  | @cons m n _ _ hmn _ ih =>
    rw [operandOf?, operandOf?, ← hmn.key]
    split
    · exact .some hmn.value
    · exact ih

theorem Verb.operands_alike (verb : Verb) {t u : Tree} (h : t.Alike u) :
    List.Forall₂ Tree.Alike (verb.operands t) (verb.operands u) := by
  have ho := operandOf?_alike verb h.members
  unfold Verb.operands
  generalize operandOf? verb t.members = x, operandOf? verb u.members = y at ho
  cases ho with
  | none => exact .nil
  | @some t u htu =>
    have hc := htu.content
    have hone : List.Forall₂ Tree.Alike [t] [u] := .cons htu .nil
    simp only
    generalize t.content = c, u.content = c' at hc
    cases hc with
    | array hi => exact hi
    | _ => exact hone

theorem checkVerbs_alike (verbs : List Verb) {ms ns : List (Member Tree)}
    (h : List.Forall₂ (Member.Alike Tree.Alike) ms ns) :
    SameVerdict Eq (checkVerbs verbs ms) (checkVerbs verbs ns) := by
  induction h with
  | nil => exact .ok rfl
  | @cons m n _ _ hmn _ ih =>
    rw [checkVerbs, checkVerbs, ← hmn.key]
    cases directiveName? m.key with
    | none => exact ih
    | some name =>
      simp only
      cases (Verb.ofName? name).filter verbs.contains with
      | none => exact .fail _ _ _
      | some _ => exact ih

/-! ## Finding and overwriting -/

variable {a b : NodeId}

namespace Document.Alike

variable {d e : Document} (h : Document.Alike R d e) (hr : R a b)
include h hr

/-- A path finds the counterparts of what it finds on the other side. -/
theorem matches? (path : String) :
    SameVerdict (List.Forall₂ R) (d.matches? a path) (e.matches? b path) := by
  unfold Document.matches? query
  cases Path.Query.read (Path.normalize path.toList) with
  | error malformed => exact .fail _ _ _
  | ok q =>
    simp only [Except.map, h.value_eq hr]
    have hsame : List.Forall₂ Eq (q.locations (e.value b)) (q.locations (e.value b)) :=
      List.forall₂_same.mpr fun _ _ => rfl
    refine .ok (List.rel_filterMap ?_ hsame)
    rintro location _ rfl
    exact h.resolve? hr location.pointer

theorem literalChange? {m n : Member Tree} (hm : Member.Alike Tree.Alike m n) :
    Option.Rel (Change.Alike R) (d.literalChange? a m) (e.literalChange? b n) := by
  have hg := h.get? hr m.key
  unfold Document.literalChange?
  rw [← hm.key]
  generalize d.get? a m.key = x, e.get? b m.key = y at hg
  cases hg with
  | none => exact .some (.insert hr hm)
  | some hxy =>
    simp only [h.isArray_eq hxy, h.isObject_eq hxy, hm.value.isArray_eq, hm.value.isObject_eq]
    split
    · exact .some (.append hxy hm.value.items)
    · split
      · exact .none
      · exact .some (.overwrite hxy hm.value)

end Document.Alike

namespace InStep

theorem find (hr : R a b) (path : String) (p q : Option Position) :
    InStep R (fun S => List.Forall₂ S) (Run.find a path p) (Run.find b path q) := by
  intro s u hs
  rw [Run.exec_find, Run.exec_find]
  refine ⟨R, le_refl R, hs, ?_⟩
  have hm := hs.document.matches? hr path
  generalize s.document.matches? a path = x, u.document.matches? b path = y at hm
  cases hm with
  | ok hxy => exact .ok hxy
  | error hfg => exact .error ⟨hfg.cause, hfg.side⟩

theorem overwrite (hr : R a b) {t u : Tree} (ht : t.Alike u) (p q : Option Position) :
    InStep R Equal (Run.overwrite a t p) (Run.overwrite b u q) := by
  refine .document fun d e hd => ?_
  rw [hd.isRoot_eq hr, ht.isObject_eq]
  split
  · exact .fail _ _ _
  · exact .change (.overwrite hr ht)

end InStep

/-! ## The verbs -/

namespace Removal

theorem removeSelf_inStep (hr : R a b) (p q : Option Position) :
    InStep R Equal (removeSelf a p) (removeSelf b q) := by
  refine .document fun d e hd => ?_
  rw [hd.isRoot_eq hr]
  split
  · exact .fail _ _ _
  · exact .bind (.change (.detach hr)) fun _ _ _ _ _ => .of_pure rfl

theorem removeProperty_inStep (hr : R a b) (name : String) (p q : Option Position) :
    InStep R Equal (removeProperty a name p) (removeProperty b name q) := by
  refine .document fun d e hd => ?_
  have hg := hd.get? hr name
  generalize d.get? a name = x, e.get? b name = y at hg
  cases hg with
  | none => exact .bind (.warn name p q) fun _ _ _ _ _ => .of_pure rfl
  | some _ => exact .bind (.change (.remove name hr)) fun _ _ _ _ _ => .of_pure rfl

theorem removeAll_inStep (hr : R a b) (p q : Option Position) {xs ys : List NodeId}
    (h : List.Forall₂ R xs ys) : InStep R Equal (removeAll a p xs) (removeAll b q ys) := by
  induction xs generalizing R ys with
  | nil => cases h; exact .of_pure rfl
  | cons x rest ih =>
    cases h with
    | cons hxy hrest =>
      refine .one_one fun hone => ?_
      rw [removeAll, removeAll]
      simp only [hone hxy hr]
      split
      · exact removeSelf_inStep hr p q
      · exact .bind (.change (.detach hxy)) fun S _ _ hle _ => ih (hle a b hr) (hrest.imp hle)

theorem removeFound_inStep (hr : R a b) {t u : Tree} (ht : t.Alike u) :
    InStep R Equal (removeFound a t) (removeFound b u) := by
  refine .bind (.demand (Attributes.ofOperand_alike _ ht)) fun S x y hle hxy => ?_
  have hr := hle a b hr
  have hp := Attributes.setting?_alike hxy .path
  simp only
  generalize Attribute.path.setting? x = v, Attribute.path.setting? y = w at hp
  cases hp with
  | none => exact .fail _ _ _
  | @some v w hvw =>
    refine .bind (.demand (pathText_alike hvw)) fun S text _ hle he => ?_
    obtain rfl := he
    have hr := hle a b hr
    refine .bind (.find hr text v.position w.position) fun S xs ys hle hxs => ?_
    have hr := hle a b hr
    have hempty : xs.isEmpty = ys.isEmpty := by cases hxs <;> rfl
    simp only [hempty]
    split
    · refine .bind (.warn text _ _) fun S _ _ hle _ => ?_
      exact removeAll_inStep (hle a b hr) _ _ (hxs.imp hle)
    · exact removeAll_inStep hr _ _ hxs

theorem act_inStep (hr : R a b) {t u : Tree} (ht : t.Alike u) : InStep R Equal (act a t) (act b u) := by
  have hc := ht.content
  have hfound := removeFound_inStep hr ht
  have htype := ht.type_eq
  unfold act
  rw [htype]
  generalize t.content = c, u.content = c' at hc
  cases hc with
  | scalar s =>
    cases s with
    | string name => exact removeProperty_inStep hr name _ _
    | bool flag =>
      cases flag with
      | false => exact .of_pure rfl
      | true => exact removeSelf_inStep hr _ _
    | _ => exact .fail _ _ _
  | array _ => exact .fail _ _ _
  | object _ => exact hfound

end Removal

namespace Replacement

theorem replaceSelf_inStep (hr : R a b) {t u : Tree} (ht : t.Alike u) :
    InStep R Equal (replaceSelf a t) (replaceSelf b u) :=
  .bind (.overwrite hr ht _ _) fun _ _ _ _ _ => .of_pure rfl

theorem replaceAll_inStep (hr : R a b) {t u : Tree} (ht : t.Alike u) {xs ys : List NodeId}
    (h : List.Forall₂ R xs ys) : InStep R Equal (replaceAll a t xs) (replaceAll b u ys) := by
  induction xs generalizing R ys with
  | nil => cases h; exact .of_pure rfl
  | cons x rest ih =>
    cases h with
    | cons hxy hrest =>
      refine .one_one fun hone => ?_
      rw [replaceAll, replaceAll]
      refine .bind (.overwrite hxy ht _ _) fun S _ _ hle _ => ?_
      simp only [hone hxy hr]
      split
      · exact .of_pure rfl
      · exact ih (hle a b hr) (hrest.imp hle)

theorem act_inStep (hr : R a b) {t u : Tree} (ht : t.Alike u) : InStep R Equal (act a t) (act b u) := by
  unfold act
  rw [ht.isObject_eq]
  split
  · exact replaceSelf_inStep hr ht
  · refine .bind (.demand (Target.ofOperand?_alike .replace ht)) fun S x y hle hxy => ?_
    have hr := hle a b hr
    cases hxy with
    | none => exact replaceSelf_inStep hr ht
    | @some x y hxy =>
      simp only [hxy.path]
      refine .bind (.find hr y.path _ _) fun S xs ys hle hxs => ?_
      exact replaceAll_inStep (hle a b hr) hxy.value hxs

end Replacement

namespace Renaming

theorem renameNode_inStep (hr : R a b) (name : String) (p q : Option Position) :
    InStep R Equal (renameNode a name p) (renameNode b name q) := by
  refine .document fun d e hd => ?_
  have hs := hd.slot hr
  generalize d.slot a = x, e.slot b = y at hs
  cases hs with
  | property key _ => exact .change (.rename name hr)
  | _ => exact .fail _ _ _

theorem renamePairs_inStep (hr : R a b) {ms ns : List (Member Tree)}
    (h : List.Forall₂ (Member.Alike Tree.Alike) ms ns) :
    InStep R Equal (renamePairs a ms) (renamePairs b ns) := by
  induction h generalizing R with
  | nil => exact .of_pure rfl
  | @cons m n _ _ hmn _ ih =>
    rw [renamePairs, renamePairs, hmn.value.string?_eq, hmn.key]
    cases n.value.string? with
    | none => exact .fail _ _ _
    | some name =>
      refine .document fun d e hd => ?_
      have hg := hd.get? hr n.key
      simp only
      generalize d.get? a n.key = x, e.get? b n.key = y at hg
      cases hg with
      | none => exact .bind (.warn n.key _ _) fun S _ _ hle _ => ih (hle a b hr)
      | some hxy => exact .bind (renameNode_inStep hxy name _ _) fun S _ _ hle _ => ih (hle a b hr)

theorem renameAll_inStep (name : String) (p q : Option Position) {xs ys : List NodeId}
    (h : List.Forall₂ R xs ys) : InStep R Equal (renameAll name p xs) (renameAll name q ys) := by
  induction xs generalizing R ys with
  | nil => cases h; exact .of_pure rfl
  | cons x rest ih =>
    cases h with
    | cons hxy hrest =>
      exact .bind (renameNode_inStep hxy name p q) fun S _ _ hle _ => ih (hrest.imp hle)

theorem act_inStep (hr : R a b) {t u : Tree} (ht : t.Alike u) : InStep R Equal (act a t) (act b u) := by
  unfold act
  rw [ht.isObject_eq, ht.type_eq]
  split
  · exact .fail _ _ _
  · refine .bind (.demand (Target.ofOperand?_alike .rename ht)) fun S x y hle hxy => ?_
    have hr := hle a b hr
    cases hxy with
    | none => exact .bind (renamePairs_inStep hr ht.members) fun _ _ _ _ _ => .of_pure rfl
    | @some x y hxy =>
      simp only [hxy.path, hxy.value.string?_eq]
      cases y.value.string? with
      | none => exact .fail _ _ _
      | some name =>
        refine .bind (.find hr y.path _ _) fun S xs ys hle hxs => ?_
        have hempty : xs.isEmpty = ys.isEmpty := by cases hxs <;> rfl
        have hall : ∀ T, S ≤ T → InStep T Equal (do renameAll name t.position xs; return Flow.proceed)
            (do renameAll name u.position ys; return Flow.proceed) := fun T hle =>
          .bind (renameAll_inStep name _ _ (hxs.imp hle)) fun _ _ _ _ _ => .of_pure rfl
        simp only [hempty]
        split
        · exact .bind (.warn y.path _ _) fun T _ _ hle _ => hall T hle
        · exact hall S (le_refl S)

end Renaming

/-! ## The chain -/

def NestedInStep (nested nested' : Tree → NodeId → Run Unit) : Prop :=
  ∀ {R : Pairing} {a b : NodeId} {t u : Tree}, R a b → t.Alike u → InStep R Equal (nested t a) (nested' u b)

variable {nested nested' : Tree → NodeId → Run Unit} (hN : NestedInStep nested nested')

namespace Merging

theorem mergeLiterals_inStep (hr : R a b) {ms ns : List (Member Tree)}
    (h : List.Forall₂ (Member.Alike Tree.Alike) ms ns) :
    InStep R Equal (mergeLiterals a ms) (mergeLiterals b ns) := by
  induction h generalizing R with
  | nil => exact .of_pure rfl
  | @cons m n _ _ hmn _ ih =>
    rw [mergeLiterals, mergeLiterals]
    refine .document fun d e hd => ?_
    have hc := hd.literalChange? hr hmn
    generalize d.literalChange? a m = x, e.literalChange? b n = y at hc
    cases hc with
    | none => exact ih hr
    | some hxy => exact .bind (.change hxy) fun S _ _ hle _ => ih (hle a b hr)

include hN

theorem mergeOne_inStep (hr : R a b) {t u : Tree} (ht : t.Alike u) (p q : Option Position) {x y : NodeId}
    (hxy : R x y) : InStep R Equal (mergeOne nested a t p x) (mergeOne nested' b u q y) := by
  refine .document fun d e hd => ?_
  simp only [hd.isObject_eq hxy, hd.isArray_eq hxy, ht.isObject_eq, ht.isArray_eq, hd.one_one hxy hr]
  split
  · exact .bind (hN hxy ht) fun _ _ _ _ _ => .of_pure rfl
  · split
    · exact .bind (.change (.append hxy ht.items)) fun _ _ _ _ _ => .of_pure rfl
    · exact .bind (.overwrite hxy ht p q) fun _ _ _ _ _ => .of_pure rfl

theorem mergeAll_inStep (hr : R a b) {t u : Tree} (ht : t.Alike u) (p q : Option Position)
    {xs ys : List NodeId} (h : List.Forall₂ R xs ys) :
    InStep R Equal (mergeAll nested a t p xs) (mergeAll nested' b u q ys) := by
  induction xs generalizing R ys with
  | nil => cases h; exact .of_pure rfl
  | cons x rest ih =>
    cases h with
    | cons hxy hrest =>
      rw [mergeAll, mergeAll]
      refine .bind (mergeOne_inStep hN hr ht p q hxy) fun S flow _ hle he => ?_
      obtain rfl := he
      refine .bind (ih (hle a b hr) (hrest.imp hle)) fun S after _ _ he => ?_
      obtain rfl := he
      exact .of_pure rfl

theorem act_inStep (hr : R a b) {t u : Tree} (ht : t.Alike u) :
    InStep R Equal (act nested a t) (act nested' b u) := by
  unfold act
  rw [ht.isObject_eq]
  split
  · exact .bind (.overwrite hr ht _ _) fun _ _ _ _ _ => .of_pure rfl
  · refine .bind (.demand (Target.ofOperand?_alike .merge ht)) fun S x y hle hxy => ?_
    have hr := hle a b hr
    cases hxy with
    | none => exact .bind (hN hr ht) fun _ _ _ _ _ => .of_pure rfl
    | @some x y hxy =>
      simp only [hxy.path]
      refine .bind (.find hr y.path _ _) fun S xs ys hle hxs => ?_
      exact mergeAll_inStep hN (hle a b hr) hxy.value _ _ hxs

end Merging

include hN

theorem descend_inStep (hr : R a b) {ms ns : List (Member Tree)}
    (h : List.Forall₂ (Member.Alike Tree.Alike) ms ns) :
    InStep R Equal (descend nested a ms) (descend nested' b ns) := by
  induction h generalizing R with
  | nil => exact .of_pure rfl
  | @cons m n _ _ hmn _ ih =>
    rw [descend, descend, hmn.key]
    refine .document fun d e hd => ?_
    have hg := optionRel_filter (hd.get? hr n.key) fun _ _ hxy => hd.isObject_eq hxy
    generalize (d.get? a n.key).filter d.isObject = x, (e.get? b n.key).filter e.isObject = y at hg
    cases hg with
    | none => exact ih hr
    | some hxy =>
      refine .bind (hN hxy hmn.value) fun S _ _ hle _ => ?_
      refine .bind (ih (hle a b hr)) fun S keys _ _ he => ?_
      obtain rfl := he
      exact .of_pure rfl

theorem Verb.act_inStep (verb : Verb) (hr : R a b) {t u : Tree} (ht : t.Alike u) :
    InStep R Equal (verb.act nested a t) (verb.act nested' b u) := by
  cases verb with
  | remove => exact Removal.act_inStep hr ht
  | replace => exact Replacement.act_inStep hr ht
  | rename => exact Renaming.act_inStep hr ht
  | merge => exact Merging.act_inStep hN hr ht

theorem Verb.actAll_inStep (verb : Verb) (hr : R a b) {ts us : List Tree} (h : List.Forall₂ Tree.Alike ts us) :
    InStep R Equal (verb.actAll nested a ts) (verb.actAll nested' b us) := by
  induction h generalizing R with
  | nil => exact .of_pure rfl
  | cons htu _ ih =>
    rw [actAll, actAll]
    refine .bind (act_inStep hN verb hr htu) fun S flow _ hle he => ?_
    obtain rfl := he
    cases flow with
    | halt => exact .of_pure rfl
    | proceed => exact ih (hle a b hr)

theorem Stage.run_inStep (stage : Stage) (hr : R a b) {t u : Tree} (ht : t.Alike u) :
    InStep R Equal (stage.run nested t a) (stage.run nested' u b) := by
  cases stage with
  | validation => exact .bind (.demand (checkVerbs_alike _ ht.members)) fun _ _ _ _ _ => .of_pure rfl
  | recursion =>
    have hm : List.Forall₂ (Member.Alike Tree.Alike) (nestedTransforms t.members)
        (nestedTransforms u.members) := by
      refine List.rel_filter (fun m n hmn => ?_) ht.members
      simp only [hmn.key, hmn.value.isObject_eq]
    refine .bind (descend_inStep hN hr hm) fun S keys _ _ he => ?_
    obtain rfl := he
    exact .of_pure rfl
  | verb v =>
    rw [Stage.run, Stage.run, Verb.apply_eq, Verb.apply_eq]
    refine .bind (v.actAll_inStep hN hr (v.operands_alike ht)) fun S flow _ _ he => ?_
    obtain rfl := he
    exact .of_pure rfl
  | literals =>
    have hm : List.Forall₂ (Member.Alike Tree.Alike) (t.members.filter fun m => !isDirective m.key)
        (u.members.filter fun m => !isDirective m.key) := by
      refine List.rel_filter (fun m n hmn => ?_) ht.members
      simp only [hmn.key]
    exact .bind (Merging.mergeLiterals_inStep hr hm) fun _ _ _ _ _ => .of_pure rfl

theorem runStages_inStep (stages : List Stage) (hr : R a b) {t u : Tree} (ht : t.Alike u) :
    InStep R Equal (runStages nested stages t a) (runStages nested' stages u b) := by
  induction stages generalizing R t u with
  | nil => exact .of_pure rfl
  | cons stage rest ih =>
    refine .bind (Stage.run_inStep hN stage hr ht) fun S outcome _ hle he => ?_
    obtain rfl := he
    obtain ⟨flow, done⟩ := outcome
    cases flow with
    | halt => exact .of_pure rfl
    | proceed => exact ih (hle a b hr) (ht.without done)

omit hN

/-- The whole work keeps in step, however deep transforms are nested. -/
theorem applyWithin_inStep (depth : Nat) : NestedInStep (applyWithin depth) (applyWithin depth) := by
  induction depth with
  | zero => exact fun _ _ => .of_pure rfl
  | succ depth ih => exact fun hr ht => runStages_inStep ih Stage.all hr ht

theorem applyTransform_inStep : NestedInStep applyTransform applyTransform := by
  intro R a b t u hr ht
  -- Both trees are less high than this depth.
  have hleft : applyTransform t = applyWithin (t.height + u.height + 1) t :=
    funext fun _ => congrFun (applyWithin_stable (by omega) (by omega)) _
  have hright : applyTransform u = applyWithin (t.height + u.height + 1) u :=
    funext fun _ => congrFun (applyWithin_stable (by omega) (by omega)) _
  rw [hleft, hright]
  exact applyWithin_inStep _ hr ht

end Reshape
