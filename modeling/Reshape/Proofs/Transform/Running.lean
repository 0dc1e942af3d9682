/-
  Reshape.Proofs.Transform.Running — runs of a transform, and what happens during one.

  A step of the work is run from a session (`Run.exec`) and leaves another one. What it has
  done to the document is told by the events that it has added: the document it leaves is
  the one it found with those changes made (`Document.after`).

  - `Leads P s s'`: work has led from `s` to `s'`, and each change on the way satisfied `P`
    of the document that it was made to. Steps in a row lead through each other
    (`Leads.bind`), and what every change keeps, the work keeps (`Leads.preserves`).
  - `Run.bind_ok`: steps in a row that end well have all ended well.
  - `Run.Always P m`: every change of the step satisfies `P`, from whatever session it is run.
    What a removal may change is said once, for every `P` (`Removal.act_always`).
-/

import Reshape.Proofs.Document.Changing
import Reshape.Transform.Chain

namespace Reshape

namespace Session

def changed (s : Session) (c : Change) : Session := ⟨s.document.perform c, .changed c :: s.events⟩

def missed (s : Session) (w : Warning) : Session := ⟨s.document, .missed w :: s.events⟩

@[simp] theorem warnings_changed (s : Session) (c : Change) : (s.changed c).warnings = s.warnings := by
  simp [warnings, changed, Event.warning?]

@[simp] theorem warnings_missed (s : Session) (w : Warning) : (s.missed w).warnings = s.warnings ++ [w] := by
  simp [warnings, missed, Event.warning?, List.filterMap_append]

end Session

/-! ## Running a step -/

namespace Run

variable {α β : Type}

/-- What a step comes to: its result, and the session that it leaves. -/
def exec (m : Run α) (s : Session) : Except Fault α × Session := (m.run.run s : Id _)

@[simp] theorem exec_fail (cause : Cause) (position : Option Position) (s : Session) :
    (fail cause position : Run α).exec s = (.error (.inTransform cause position), s) := rfl

@[simp] theorem exec_document (s : Session) : document.exec s = (.ok s.document, s) := rfl

@[simp] theorem exec_change (c : Change) (s : Session) : (change c).exec s = (.ok (), s.changed c) := rfl

@[simp] theorem exec_warn (name : String) (position : Option Position) (s : Session) :
    (warn name position).exec s = (.ok (), s.missed ⟨name, position⟩) := rfl

@[simp] theorem exec_demand (e : Except Fault α) (s : Session) : (demand e).exec s = (e, s) := by
  cases e <;> rfl

theorem exec_demand_ok {e : Except Fault α} {a : α} (h : e = .ok a) (s : Session) :
    (demand e).exec s = (.ok a, s) := by
  rw [exec_demand, h]

theorem exec_bind (m : Run α) (f : α → Run β) (s : Session) :
    (m >>= f).exec s = match m.exec s with
      | (.ok a, s') => (f a).exec s'
      | (.error e, s') => (.error e, s') := by
  unfold exec
  simp only [bind, ExceptT.bind, ExceptT.mk, ExceptT.run, StateT.bind, StateT.run]
  rcases (m s : Except Fault α × Session) with ⟨r, s'⟩
  cases r <;> rfl

theorem exec_bind_ok {m : Run α} {f : α → Run β} {s s' : Session} {a : α} (h : m.exec s = (.ok a, s')) :
    (m >>= f).exec s = (f a).exec s' := by
  rw [exec_bind, h]

theorem exec_bind_error {m : Run α} {f : α → Run β} {s s' : Session} {e : Fault}
    (h : m.exec s = (.error e, s')) : (m >>= f).exec s = (.error e, s') := by
  rw [exec_bind, h]

/-- Two steps in a row that end well have both ended well. -/
theorem bind_ok {m : Run α} {f : α → Run β} {s s' : Session} {b : β} (h : (m >>= f).exec s = (.ok b, s')) :
    ∃ a mid, m.exec s = (.ok a, mid) ∧ (f a).exec mid = (.ok b, s') := by
  rcases hm : m.exec s with ⟨r, mid⟩
  cases r with
  | error e => rw [exec_bind_error hm] at h; cases h
  | ok a => exact ⟨a, mid, rfl, by rwa [exec_bind_ok hm] at h⟩

theorem pure_ok {a b : α} {s s' : Session} (h : (pure a : Run α).exec s = (.ok b, s')) :
    b = a ∧ s' = s := by
  cases h
  exact ⟨rfl, rfl⟩

theorem demand_ok {e : Except Fault α} {a : α} {s s' : Session} (h : (demand e).exec s = (.ok a, s')) :
    e = .ok a ∧ s' = s := by
  rw [exec_demand] at h
  cases h
  exact ⟨rfl, rfl⟩

end Run

/-- Finding the matches of a path changes nothing. -/
theorem Run.exec_find (node : NodeId) (path : String) (position : Option Position) (s : Session) :
    (Run.find node path position).exec s =
      (match s.document.matches? node path with
        | .ok found => .ok found
        | .error f => .error (f.orAt position), s) := by
  unfold Run.find
  rw [exec_bind_ok (exec_document s)]
  cases s.document.matches? node path <;> rfl

theorem Run.exec_find_ok {node : NodeId} {path : String} {found : List NodeId} {s : Session}
    (h : s.document.matches? node path = .ok found) (position : Option Position) :
    (Run.find node path position).exec s = (.ok found, s) := by
  rw [exec_find, h]

theorem Run.find_ok {node : NodeId} {path : String} {position : Option Position} {found : List NodeId}
    {s s' : Session} (h : (Run.find node path position).exec s = (.ok found, s')) :
    s.document.matches? node path = .ok found ∧ s' = s := by
  rw [exec_find] at h
  split at h
  · rename_i hm
    cases h
    exact ⟨hm, rfl⟩
  · cases h

/-- What overwriting a node comes to. -/
theorem Run.exec_overwrite (target : NodeId) (t : Tree) (position : Option Position) (s : Session) :
    (Run.overwrite target t position).exec s =
      if s.document.isRoot target && !t.isObject then (.error (.inTransform .replacesRoot position), s)
      else (.ok (), s.changed (.overwrite target t)) := by
  unfold Run.overwrite
  rw [exec_bind_ok (exec_document s)]
  split <;> simp

/-! ## What happens during a run -/

/-- The document after more has happened, the latest first. -/
def Document.after (d : Document) : List Event → Document
  | [] => d
  | .changed c :: before => (d.after before).perform c
  | .missed _ :: before => d.after before

/-- Each change among the events satisfied `P` of the document that it was made to. -/
def Along (P : Document → Change → Prop) (d : Document) : List Event → Prop
  | [] => True
  | .changed c :: before => Along P d before ∧ P (d.after before) c
  | .missed _ :: before => Along P d before

theorem Document.after_append (d : Document) (later before : List Event) :
    d.after (later ++ before) = (d.after before).after later := by
  induction later with
  | nil => rfl
  | cons e rest ih => cases e <;> simp only [List.cons_append, after, ih]

theorem along_append {P : Document → Change → Prop} {d : Document} {later before : List Event} :
    Along P d (later ++ before) ↔ Along P d before ∧ Along P (d.after before) later := by
  induction later with
  | nil => simp [Along]
  | cons e rest ih =>
    cases e with
    | changed c => simp only [List.cons_append, Along, ih, Document.after_append, and_assoc]
    | missed w => simp only [List.cons_append, Along, ih]

/-- Where not each change satisfied `P`, there was one that did not. -/
theorem not_along_iff {P : Document → Change → Prop} {d : Document} {events : List Event} :
    ¬ Along P d events ↔ ∃ before c after, events = after ++ .changed c :: before ∧
      ¬ P (d.after before) c := by
  constructor
  · intro h
    induction events with
    | nil => exact absurd trivial h
    | cons e rest ih =>
      by_cases hr : Along P d rest
      · cases e with
        | missed w => exact absurd hr h
        | changed c => exact ⟨rest, c, [], rfl, fun hc => h ⟨hr, hc⟩⟩
      · obtain ⟨before, c, after, rfl, hc⟩ := ih hr
        exact ⟨before, c, e :: after, rfl, hc⟩
  · rintro ⟨before, c, after, rfl, hc⟩ h
    exact hc (along_append.mp h).1.2

def Leads (P : Document → Change → Prop) (s s' : Session) : Prop :=
  ∃ events, s'.events = events ++ s.events ∧ s'.document = s.document.after events ∧ Along P s.document events

namespace Leads

variable {P Q : Document → Change → Prop} {s s' s'' : Session}

theorem refl (P : Document → Change → Prop) (s : Session) : Leads P s s := ⟨[], rfl, rfl, trivial⟩

theorem trans (h : Leads P s s') (h' : Leads P s' s'') : Leads P s s'' := by
  obtain ⟨first, he, hd, ha⟩ := h
  obtain ⟨second, he', hd', ha'⟩ := h'
  refine ⟨second ++ first, by rw [he', he, List.append_assoc], by rw [hd', hd, Document.after_append], ?_⟩
  exact along_append.mpr ⟨ha, hd ▸ ha'⟩

theorem changed {c : Change} (h : P s.document c) : Leads P s (s.changed c) :=
  ⟨[.changed c], rfl, rfl, trivial, h⟩

theorem missed (w : Warning) : Leads P s (s.missed w) := ⟨[.missed w], rfl, rfl, trivial⟩

/-- What every change keeps, the work keeps, and it may be relied on at every change. -/
theorem upgrade {I : Document → Prop} (h : Leads P s s') (hs : I s.document)
    (step : ∀ d c, I d → P d c → Q d c ∧ I (d.perform c)) : Leads Q s s' ∧ I s'.document := by
  obtain ⟨events, he, hd, ha⟩ := h
  have key : Along Q s.document events ∧ I (s.document.after events) := by
    clear he hd
    induction events with
    | nil => exact ⟨trivial, hs⟩
    | cons e before ih =>
      cases e with
      | missed w => exact ih ha
      | changed c =>
        obtain ⟨hQ, hI⟩ := ih ha.1
        obtain ⟨hc, hI'⟩ := step _ c hI ha.2
        exact ⟨⟨hQ, hc⟩, hI'⟩
  exact ⟨⟨events, he, hd, key.1⟩, hd ▸ key.2⟩

theorem preserves {I : Document → Prop} (h : Leads P s s') (hs : I s.document)
    (step : ∀ d c, I d → P d c → I (d.perform c)) : I s'.document :=
  (h.upgrade (Q := fun _ _ => True) hs fun d c hI hP => ⟨trivial, step d c hI hP⟩).2

theorem mono (h : Leads P s s') (imp : ∀ d c, P d c → Q d c) : Leads Q s s' :=
  (h.upgrade (I := fun _ => True) trivial fun d c _ hP => ⟨imp d c hP, trivial⟩).1

/-- What every change keeps holds all along the way, before the work, in the midst of it and after it. -/
theorem throughout {I : Document → Prop} (h : Leads P s s') (hs : I s.document)
    (step : ∀ d c, I d → P d c → I (d.perform c)) :
    ∃ events, s'.events = events ++ s.events ∧ s'.document = s.document.after events ∧
      ∀ past, past <:+ events → I (s.document.after past) := by
  obtain ⟨events, he, hd, ha⟩ := h
  refine ⟨events, he, hd, ?_⟩
  clear he hd
  induction events with
  | nil =>
    intro past hp
    obtain rfl := List.suffix_nil.mp hp
    exact hs
  | cons e before ih =>
    have hbefore : Along P s.document before := by
      cases e with
      | missed w => exact ha
      | changed c => exact ha.1
    intro past hp
    rcases List.suffix_cons_iff.mp hp with rfl | hp
    · have hI := ih hbefore before List.suffix_rfl
      cases e with
      | missed w => exact hI
      | changed c => exact step _ c hI ha.2
    · exact ih hbefore past hp

/-- Two things that are true of every change are true of it together. -/
theorem and (h : Leads P s s') (h' : Leads Q s s') : Leads (fun d c => P d c ∧ Q d c) s s' := by
  obtain ⟨events, he, hd, ha⟩ := h
  obtain ⟨events', he', -, ha'⟩ := h'
  obtain rfl : events' = events := List.append_cancel_right (he'.symm.trans he)
  refine ⟨events', he, hd, ?_⟩
  clear he hd he'
  induction events' with
  | nil => trivial
  | cons e before ih =>
    cases e with
    | missed w => exact ih ha' ha
    | changed c => exact ⟨ih ha'.1 ha.1, ha.2, ha'.2⟩

/-- Steps in a row lead through each other. -/
theorem bind {α β : Type} {m : Run α} {f : α → Run β} (hm : Leads P s (m.exec s).2)
    (hf : ∀ a mid, m.exec s = (.ok a, mid) → Leads P s mid → Leads P mid ((f a).exec mid).2) :
    Leads P s ((m >>= f).exec s).2 := by
  rcases hr : m.exec s with ⟨r, mid⟩
  rw [hr] at hm
  cases r with
  | error e => rw [Run.exec_bind_error hr]; exact hm
  | ok a => rw [Run.exec_bind_ok hr]; exact hm.trans (hf a mid hr hm)

end Leads

/-! ## Steps of which every change is true -/

namespace Run

variable {α β : Type} {P : Document → Change → Prop}

/-- Wherever the step is run from, each change that it makes satisfies `P`, also if it fails. -/
def Always (P : Document → Change → Prop) (m : Run α) : Prop := ∀ s, Leads P s (m.exec s).2

namespace Always

theorem of_pure (a : α) : Always P (pure a : Run α) := fun s => .refl P s

theorem fail (cause : Cause) (position : Option Position) : Always P (fail cause position : Run α) :=
  fun s => .refl P s

theorem demand (e : Except Fault α) : Always P (demand e) := fun s => by
  rw [exec_demand]; exact .refl P s

theorem document : Always P document := fun s => .refl P s

theorem warn (name : String) (position : Option Position) : Always P (warn name position) := fun _ => .missed _

theorem find (node : NodeId) (path : String) (position : Option Position) :
    Always P (find node path position) := fun s => by
  rw [exec_find]; exact .refl P s

theorem change {c : Change} (h : ∀ d, P d c) : Always P (change c) := fun s => .changed (h s.document)

theorem bind {m : Run α} {f : α → Run β} (hm : Always P m) (hf : ∀ a, Always P (f a)) :
    Always P (m >>= f) := fun s => Leads.bind (hm s) fun a mid _ _ => hf a mid

end Always

end Run

/-! ## What removals change -/

namespace Removal

open Run (Always)

variable {P : Document → Change → Prop}

theorem removeSelf_always (hdetach : ∀ d target, P d (.detach target)) (node : NodeId) (position : Option Position) :
    Always P (removeSelf node position) := by
  refine .bind .document fun d => ?_
  split
  · exact .fail _ _
  · exact .bind (.change fun d => hdetach d node) fun _ => .of_pure _

theorem removeProperty_always (hremove : ∀ d object key, P d (.remove object key)) (node : NodeId) (name : String)
    (position : Option Position) : Always P (removeProperty node name position) := by
  refine .bind .document fun d => ?_
  split
  · exact .bind (.change fun d => hremove d node name) fun _ => .of_pure _
  · exact .bind (.warn _ _) fun _ => .of_pure _

theorem removeAll_always (hdetach : ∀ d target, P d (.detach target)) (node : NodeId) (position : Option Position)
    (found : List NodeId) : Always P (removeAll node position found) := by
  induction found with
  | nil => exact .of_pure _
  | cons target rest ih =>
    rw [removeAll]
    split
    · exact removeSelf_always hdetach node position
    · exact .bind (.change fun d => hdetach d target) fun _ => ih

/-- A removal removes properties and detaches nodes, and changes nothing else. -/
theorem act_always (hremove : ∀ d object key, P d (.remove object key)) (hdetach : ∀ d target, P d (.detach target))
    (node : NodeId) (operand : Tree) : Always P (act node operand) := by
  unfold act
  split
  · exact removeProperty_always hremove _ _ _
  · exact removeSelf_always hdetach _ _
  · exact .of_pure _
  · refine .bind (.demand _) fun attributes => ?_
    split
    · exact .fail _ _
    · refine .bind (.demand _) fun text => .bind (.find _ _ _) fun found => ?_
      split
      · exact .bind (.warn _ _) fun _ => removeAll_always hdetach _ _ _
      · exact removeAll_always hdetach _ _ _
  · exact .fail _ _

end Removal

end Reshape
