/-
  Reshape.Proofs.Transform.Verdict — what an application comes to, and what it reports.

  An application to a text ends in one of two ways. It answers the text of an object, and has
  reported no error; or it answers nothing, and the last thing that it has reported is an
  error, the only one (`Transformation.Settled`). Steps of the work can warn and can fail,
  but report no error themselves, so the one error is that of the fault which has ended the
  work, however deep in nested transforms it came up. And the root of the source is an object
  to begin with, and stays one as long as nothing fails.

  - `Document.Sound`: the document is well-formed and its root an object; the work on the root
    keeps it so (`applyTransform_sound`), whether it ends well or fails.
  - `applyText_settled`: one application.
  - `applyTexts_settled`: applications in a row. What has been reported before plays no part
    in them: each is settled, and is what it would be alone.
-/

import Reshape.Application
import Reshape.Proofs.Json.RoundTrip
import Reshape.Proofs.Transform.RootGuard

namespace Reshape

/-! ## Results -/

/-- A value with unique keys is read back from what it is written as. -/
theorem Value.Keyed.reads_back {v : Value} (h : v.Keyed) (layout : Layout) :
    ∃ d, Document.parse (v.text layout) = .ok d ∧ d.rootValue = v := by
  have hspells := v.chars_spells layout 0 h []
  rw [List.append_nil] at hspells
  apply parse_eq_iff.mpr
  rw [Value.text_eq, String.toList_ofList]
  exact ⟨_, _, [], .inl rfl, .none, hspells, .none⟩

structure Document.Sound (d : Document) : Prop extends d.WellFormed where
  object : d.isObject d.root = true

/-- The text of a sound document reads as an object. -/
theorem Document.Sound.reads_back {d : Document} (h : d.Sound) (layout : Layout) :
    ∃ e, Document.parse (d.rootValue.text layout) = .ok e ∧ e.isObject e.root = true := by
  have hkeyed : d.rootValue.Keyed := (h.tree_keyed d.root).value
  obtain ⟨e, he, hv⟩ := hkeyed.reads_back layout
  refine ⟨e, he, ?_⟩
  obtain ⟨ms, hms⟩ := (h.value_isObject d.root).mp h.object
  exact ((Document.parse_wellFormed he).value_isObject e.root).mpr ⟨ms, hv.trans hms⟩

/-- Work on the root of a sound document leaves it sound, also work that fails. -/
theorem applyTransform_sound {s : Session} {t : Tree} (h : s.document.Sound) (ht : t.Keyed) :
    ((applyTransform t s.document.root).exec s).2.document.Sound := by
  have hlocal := applyTransform_obeys.keeps h.toWellFormed h.root_held ht
  have hspares := applyTransform_spares t s.document.root s
  apply (hlocal.and hspares).preserves h
  intro d c hd hc
  have hwf := hd.perform hc.1.fits
  refine ⟨hwf, ?_⟩
  rw [(hd.perform_edited hc.1.fits).root_eq]
  exact Document.perform_isObject hd.object (hc.2 hd.toWellFormed)

namespace Transformation

variable {t : Transformation}

/-- The keys of each object in a transform that is loaded from a text are unique. -/
theorem ofText_keyed {text : String} (h : ofText text = .ok t) : t.tree.Keyed := by
  unfold ofText ofTree at h
  split at h
  · rename_i u hu
    split at h
    · obtain rfl := Except.ok.inj h
      exact Document.treeParse_keyed hu
    · cases h
  · cases h

/-- A document to which the transform has been applied well is sound. -/
theorem applyTo_sound (ht : t.tree.Keyed) {source : Document} (h : source.WellFormed)
    (hok : (t.applyTo source).1 = .ok ()) : (t.applyTo source).2.document.Sound := by
  unfold applyTo at hok ⊢
  split at hok
  · rename_i ho
    rw [if_pos ho]
    exact applyTransform_sound (s := ⟨source, []⟩) ⟨h, ho⟩ ht
  · cases hok

/-! ## One application -/

/-- What is answered and reported: a text that reads as an object, and no error; or nothing, and one error,
    which comes last. -/
inductive Settled : Option String × Journal → Prop where
  | output {text : String} {d : Document} {j : Journal} (reads : Document.parse text = .ok d)
      (object : d.isObject d.root = true) (quiet : ∀ e ∈ j.entries, e.level ≠ .error) : Settled (some text, j)
  | fault {j : Journal} {before : List Entry} {last : Entry} (entries : j.entries = before ++ [last])
      (level : last.level = .error) (quiet : ∀ e ∈ before, e.level ≠ .error) : Settled (none, j)

/-- A fault that is reported behind nothing but warnings settles the application. -/
theorem settled_fault {j : Journal} (hj : ∀ e ∈ j.entries, e.level ≠ .error) (f : Fault) :
    Settled (none, j.fault f) :=
  .fault rfl rfl hj

/-- All that is reported of a transform at work are warnings. -/
theorem warnings_quiet (t : Transformation) (file : Option String) (ws : List Warning) :
    ∀ e ∈ ((t.journal file).warnAll ws).entries, e.level ≠ .error := by
  intro e he
  rw [Journal.entries_warnAll] at he
  obtain ⟨w, -, rfl⟩ := List.mem_map.mp he
  exact nofun

/-- An application to a text answers an object and reports no error, or answers nothing and reports one. -/
theorem applyText_settled (ht : t.tree.Keyed) (text : String) (file : Option String) :
    Settled (t.applyText text file) := by
  unfold applyText
  cases hd : Document.parse text with
  | error f => exact settled_fault (fun e he => absurd he List.not_mem_nil) _
  | ok source =>
    have hquiet := t.warnings_quiet file (t.applyTo source).2.warnings
    cases hresult : (t.applyTo source).1 with
    | error f =>
      simp only [applyDocument, hresult]
      exact settled_fault hquiet f
    | ok u =>
      have hsound := applyTo_sound ht (Document.parse_wellFormed hd) hresult
      obtain ⟨e, he, hobject⟩ := hsound.reads_back t.layout
      -- The work reports no error, so the check that none has been reported is always passed.
      have hnone : ((t.journal file).warnAll (t.applyTo source).2.warnings).hasErrors = false :=
        Journal.hasErrors_warnAll _ _
      simp only [applyDocument, hresult, hnone, Bool.false_eq_true, if_false]
      exact .output he hobject hquiet

/-! ## Applications in a row -/

/-- One more application answers and reports what it does alone, behind what is there. -/
theorem applyTexts_cons (t : Transformation) (log : List Entry) (text : String) (rest : List String) :
    t.applyTexts log (text :: rest) =
      ((t.applyText text none).1 :: (t.applyTexts (log ++ (t.applyText text none).2.entries) rest).1,
        (t.applyTexts (log ++ (t.applyText text none).2.entries) rest).2) := rfl

/-- Applied to texts one after the other, a transform answers each text and reports on it as it would alone,
    whatever has been reported before: an object and no error, or nothing and one error, which comes last. -/
theorem applyTexts_settled (ht : t.tree.Keyed) (log : List Entry) (texts : List String) :
    t.applyTexts log texts = (texts.map fun text => (t.applyText text none).1,
        log ++ texts.flatMap fun text => (t.applyText text none).2.entries) ∧
      ∀ text ∈ texts, Settled (t.applyText text none) := by
  refine ⟨?_, fun text _ => applyText_settled ht text none⟩
  induction texts generalizing log with
  | nil => rw [applyTexts, List.map_nil, List.flatMap_nil, List.append_nil]
  | cons text rest ih =>
    rw [applyTexts_cons, ih, List.map_cons, List.flatMap_cons, List.append_assoc]

/-- A transform that, where an object stands under a key, looks in it for something in vain and then renames to
    a number. -/
def stumbling : String := "\x7b'a': \x7b'@jdt.remove': 'z', '@jdt.rename': 1\x7d\x7d"

-- Irreducible, or comparing it with another term would run the reader.
@[irreducible]
def stumblingLoaded : Transformation :=
  match ofText stumbling with
  | .ok t => t.laidOut .compact
  | .error _ => ⟨⟨none, .object []⟩, rfl, none, .compact⟩

/-- The keys of each object in the loaded transform are unique. -/
theorem stumblingLoaded_keyed : stumblingLoaded.tree.Keyed := by
  unfold stumblingLoaded
  cases h : ofText stumbling with
  | ok t => exact ofText_keyed (t := t) h
  | error f =>
    have hok : (ofText stumbling).isOk = true := by decide +kernel
    rw [h] at hok
    cases hok

def stumblingTexts : List String := ["[]", "\x7b'a': \x7b\x7d\x7d", "\x7b", "\x7b'a': 1, 'b': 2\x7d"]

/-- What fails leaves no trace in what comes behind it. -/
theorem stumbling_settled :
    (stumblingLoaded.applyTexts [] stumblingTexts).1.map (·.isSome) = [false, false, false, true] ∧
    (stumblingLoaded.applyTexts [] stumblingTexts).2.map (·.level) = [.error, .warning, .error, .error] ∧
    ∀ text ∈ stumblingTexts, Settled (stumblingLoaded.applyText text none) := by
  obtain ⟨-, hsettled⟩ := applyTexts_settled stumblingLoaded_keyed [] stumblingTexts
  exact ⟨by decide +kernel, by decide +kernel, hsettled⟩

end Transformation

end Reshape
