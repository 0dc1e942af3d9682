/-
  Reshape.Proofs.CommandLine.Modes — printing the result and writing it to a file agree.

  The command has two ways to give its result. What it makes of the two files that it reads, the
  result and the entries of its journal, is the same on both (`outcome`): to produce it changes
  nothing but the reports (`play_produce`). Then the result is printed with a line break behind it,
  or written to a file.

  Both ways end alike if there are two files to read and the result can be written. Without a file
  to read they do not: printing reports what stands in the way as an entry and ends as any transform
  without a result, writing ends with an error of the command.

  - `applyText_levels`, `outcome_levels`: a journal holds warnings and errors only.
  - `play_runToOutput`, `play_runToFile`: each way, in one equation.
  - `modes_agree`: there is a result on both ways or on neither.
-/

import Reshape.Proofs.CommandLine.FileTrees
import Reshape.Proofs.CommandLine.Scenes

namespace Reshape

open Relation (ReflTransGen)

/-! ## Warnings and errors -/

namespace Journal

variable {j : Journal} (h : ∀ e ∈ j.entries, e.level ≠ .message)
include h

theorem fault_levels (f : Fault) : ∀ e ∈ (j.fault f).entries, e.level ≠ .message := by
  intro e he
  rcases List.mem_append.mp he with he | he
  · exact h e he
  · rw [List.mem_singleton.mp he]
    exact nofun

theorem warnAll_levels (ws : List Warning) : ∀ e ∈ (j.warnAll ws).entries, e.level ≠ .message := by
  intro e he
  rw [entries_warnAll] at he
  rcases List.mem_append.mp he with he | he
  · exact h e he
  · obtain ⟨w, -, rfl⟩ := List.mem_map.mp he
    exact nofun

end Journal

/-- An application to a text reports warnings and errors only. -/
theorem Transformation.applyText_levels (t : Transformation) (text : String) (file : Option String) :
    ∀ e ∈ (t.applyText text file).2.entries, e.level ≠ .message := by
  have hempty : ∀ e ∈ (t.journal file).entries, e.level ≠ .message := nofun
  unfold applyText
  cases Document.parse text with
  | error f => exact Journal.fault_levels hempty _
  | ok source =>
    simp only [applyDocument]
    cases (t.applyTo source).1 with
    | ok => exact Journal.warnAll_levels hempty _
    | error f => exact Journal.fault_levels (Journal.warnAll_levels hempty _) _

namespace Command

/-! ## What the command makes of the files -/

def loaded (o : Options) (read : Except FileError ByteArray) : Except Fault Transformation :=
  match textOf read with
  | .error e => .error ((Fault.bare (.unreadable o.transform e.text)).on .transform)
  | .ok text => (Transformation.ofText text).map fun t => (t.fromFile o.transform).laidOut o.layout

def applied (o : Options) (t : Transformation) (read : Except FileError ByteArray) : Option String × Journal :=
  match textOf read with
  | .error e => t.applyUnread o.source e.text (some o.source)
  | .ok text => t.applyText text (some o.source)

/-- What the command makes of the two files: the result, if there is one, and the entries that it reports. -/
def outcome (o : Options) (source transform : Except FileError ByteArray) : Option String × List Entry :=
  match loaded o transform with
  | .error f => (none, [⟨.error, f.message, some o.transform, f.position⟩])
  | .ok t => ((applied o t source).1, (applied o t source).2.entries)

/-- The entries are warnings and errors. -/
theorem outcome_levels (o : Options) (source transform : Except FileError ByteArray) :
    ∀ e ∈ (outcome o source transform).2, e.level ≠ .message := by
  unfold outcome
  cases loaded o transform with
  | error f =>
    intro e he
    rw [List.mem_singleton.mp he]
    exact nofun
  | ok t =>
    simp only [applied]
    cases textOf source with
    | error e => exact Journal.fault_levels (j := t.journal (some o.source)) nofun _
    | ok text => exact t.applyText_levels text _

/-- The lines of the entries that are reported; messages are for those who want them. -/
def lines (o : Options) (entries : List Entry) : List String :=
  (entries.filter fun e => e.level != .message || o.verbose).map (Entry.line o.format)

theorem lines_append (o : Options) (entries more : List Entry) :
    lines o (entries ++ more) = lines o entries ++ lines o more := by
  simp [lines]

section Playing

variable {F : Type} [FileSystem F] (o : Options) (s : Scene F)

theorem play_reportEntry (e : Entry) :
    s.play (reportEntry o e) = ((), { s with reported := s.reported ++ lines o [e] }) := by
  unfold reportEntry lines
  by_cases hm : e.level = .message
  · cases o.verbose <;> simp [hm]
  · simp [hm]

theorem play_reportAll (entries : List Entry) :
    s.play (reportAll o entries) = ((), { s with reported := s.reported ++ lines o entries }) := by
  induction entries generalizing s with
  | nil => simp [reportAll, lines]
  | cons e rest ih =>
    rw [reportAll, Scene.play_bind, play_reportEntry, ih, List.append_assoc, ← lines_append, List.singleton_append]

theorem play_load : s.play (load o) = (loaded o (FileSystem.readBytes s.files o.transform), s) := by
  rw [load, Scene.play_bind, play_readText, loaded]
  cases textOf (FileSystem.readBytes s.files o.transform) <;> rfl

theorem play_applyFile (t : Transformation) :
    s.play (applyFile o t) = (applied o t (FileSystem.readBytes s.files o.source), s) := by
  rw [applyFile, Scene.play_bind, play_readText, applied]
  cases textOf (FileSystem.readBytes s.files o.source) <;> rfl

def outcomeIn : Option String × List Entry :=
  outcome o (FileSystem.readBytes s.files o.source) (FileSystem.readBytes s.files o.transform)

/-- To produce the result changes nothing but the reports. -/
theorem play_produce :
    s.play (produce o) = ((outcomeIn o s).1, { s with reported := s.reported ++ lines o (outcomeIn o s).2 }) := by
  rw [produce, Scene.play_bind, play_load, outcomeIn, outcome]
  cases loaded o (FileSystem.readBytes s.files o.transform) with
  | error f => simp only [Scene.play_bind, play_reportEntry, Scene.play_pure]
  | ok t => simp only [Scene.play_bind, play_applyFile, play_reportAll, Scene.play_pure]

/-! ## The two ways -/

theorem play_runToOutput :
    s.play (runToOutput o) =
      match (outcomeIn o s).1 with
      | none => (.ok false, { s with reported := s.reported ++ lines o (outcomeIn o s).2 })
      | some text => (.ok true, { s with
          printed := s.printed ++ (text ++ "\n")
          reported := s.reported ++ lines o (outcomeIn o s).2 }) := by
  rw [runToOutput, Scene.play_bind, play_produce]
  cases (outcomeIn o s).1 <;> simp only [Scene.play_bind, Scene.play_print, Scene.play_pure]

/-- Where there are two files to read, they are read, and then the result is written. -/
theorem play_runToFile {path : String} (hsource : FileSystem.isThere s.files o.source = true)
    (htransform : FileSystem.isThere s.files o.transform = true) :
    s.play (runToFile o path) =
      match (outcomeIn o s).1 with
      | none => (.ok false, { s with reported := s.reported ++ lines o (outcomeIn o s).2 })
      | some text =>
        let written := ({ s with reported := s.reported ++ lines o (outcomeIn o s).2 } : Scene F).play
          (writeResult path text)
        match written.1 with
        | .error stop => (.error stop, written.2)
        | .ok () => (.ok true, { written.2 with
            reported := written.2.reported ++ lines o [⟨.message, "Wrote " ++ path, none, none⟩] }) := by
  simp only [runToFile, Scene.play_bind, Scene.play_isThere, hsource, htransform, Bool.not_true, Bool.false_eq_true,
    if_false, play_produce]
  cases (outcomeIn o s).1 with
  | none => rfl
  | some text =>
    simp only [Scene.play_bind]
    rcases ({ s with reported := s.reported ++ lines o (outcomeIn o s).2 } : Scene F).play (writeResult path text) with
      ⟨_ | _, after⟩
    · rfl
    · simp only [Scene.play_bind, play_reportEntry, Scene.play_pure]

end Playing

/-- In any file system in which there are two files to read and results can be written to a path, printing and writing
    agree: there is a result on both ways or on neither. If there is one, it is printed with a line break behind it, or
    it is what the path is given in the one operation that is not to make a directory, and nothing is printed. If
    there is none, nothing is printed, and the files are as they were. The same warnings and errors are reported,
    and besides them, in a message, only that the result has been written. -/
theorem modes_agree {F : Type} [FileSystem F] (o : Options) (path : String) (s : Scene F)
    (hsource : FileSystem.isThere s.files o.source = true) (htransform : FileSystem.isThere s.files o.transform = true)
    (hwrites : ∀ text, (s.play (writeResult path text)).1 = .ok ()) :
    let result := (outcomeIn o s).1
    let entries := (outcomeIn o s).2
    let toFile := s.play (run { o with output := some path })
    let toOutput := s.play (run { o with output := none })
    (toFile.1 = .ok true ↔ toOutput.1 = .ok true) ∧
    (∀ text, result = some text →
      toOutput = (.ok true, { s with
        printed := s.printed ++ (text ++ "\n")
        reported := s.reported ++ lines o entries }) ∧
      ∃ made after : F, ReflTransGen MakesDirectory s.files made ∧
        FileSystem.writeText made path text = (.ok (), after) ∧
        toFile = (.ok true, { s with
          files := after
          reported := s.reported ++ lines o (entries ++ [⟨.message, "Wrote " ++ path, none, none⟩]) })) ∧
    (result = none →
      toOutput = (.ok false, { s with reported := s.reported ++ lines o entries }) ∧ toFile = toOutput) ∧
    ∀ e ∈ entries, e.level ≠ .message := by
  intro result entries toFile toOutput
  have hlevels : ∀ e ∈ entries, e.level ≠ .message := outcome_levels o _ _
  have hout : toOutput = _ := play_runToOutput { o with output := none } s
  have hfile : toFile = _ := play_runToFile { o with output := some path } s hsource htransform
  change _ = match result with | none => _ | some text => _ at hout hfile
  cases hr : result with
  | none =>
    rw [hr] at hout hfile
    have hsame : toFile = toOutput := hfile.trans hout.symm
    exact ⟨by rw [hsame], nofun, fun _ => ⟨hout, hsame⟩, hlevels⟩
  | some text =>
    rw [hr] at hout hfile
    obtain ⟨made, after, hmade, hwritten, hplay⟩ := writeResult_ok (hwrites text)
    have hreported : toFile = (.ok true, { s with
        files := after
        reported := s.reported ++ lines o (entries ++ [⟨.message, "Wrote " ++ path, none, none⟩]) }) := by
      rw [lines_append, ← List.append_assoc]
      simp only [hfile, hplay]
      rfl
    refine ⟨by rw [hreported, hout], fun text' htext => ?_, nofun, hlevels⟩
    cases htext
    exact ⟨hout, made, after, hmade, hwritten, hreported⟩

/-! ## In a file tree -/

/-- If one text can be written to a path, so can any other. -/
theorem writeResult_any {w : World} {path : String} (text : String)
    (h : (w.play (writeResult path text)).1.isOk = true) (other : String) :
    (w.play (writeResult path other)).1 = .ok () := by
  have hsame (t : FileTree) : (FileSystem.writeText t path other).1 = (FileSystem.writeText t path text).1 :=
    t.change_write path other text
  simp only [writeResult, Scene.play_bind] at h ⊢
  cases hmade : (w.play (makeDirectories (parentPath path).length (parentPath path))).1 with
  | error e =>
    rw [hmade] at h
    cases h
  | ok =>
    rw [hmade] at h
    simp only [Scene.play_bind, Scene.play_writeText, hsame] at h ⊢
    split at h
    case h_1 => cases h
    case h_2 => rfl

/-- Two files, the second of which adds a property to the object in the first and looks for another one in vain. -/
def desk : World where
  files := ⟨[(["app.json"], .file "\x7b'A': 1\x7d".toUTF8),
    (["app.Release.json"], .file "\x7b'B': true, '@jdt.remove': 'C'\x7d".toUTF8)]⟩
  printed := ""
  reported := []

def release : Options := ⟨"app.json", "app.Release.json", none, true, false, .human⟩

/-- The result is printed, or written to a file in a directory that is made for it, with the same warning. -/
theorem desk_modes_agree :
    let toFile := desk.play (run { release with output := some "out/app.json" })
    let toOutput := desk.play (run { release with output := none })
    let text := "\x7b\"A\":1,\"B\":true\x7d"
    toFile.1 = .ok true ∧ toOutput.1 = .ok true ∧
    toOutput.2.printed = text ++ "\n" ∧ toFile.2.files.read "out/app.json" = .ok text.toUTF8 ∧
    toOutput.2.reported = ["app.Release.json:1:28: warning: Node C was not found"] ∧
    toFile.2.reported = toOutput.2.reported := by
  intro toFile toOutput text
  have houtcome : outcomeIn release desk =
      (some text, [⟨.warning, "Node C was not found", some "app.Release.json", some ⟨1, 28⟩⟩]) := by decide +kernel
  obtain ⟨-, hresult, -, -⟩ := modes_agree release "out/app.json" desk (by decide +kernel) (by decide +kernel)
    (writeResult_any text (by decide +kernel))
  obtain ⟨hout, made, after, -, hwritten, hfile⟩ := hresult text (congrArg Prod.fst houtcome)
  rw [houtcome] at hout hfile
  have hout : toOutput = _ := hout
  have hfile : toFile = _ := hfile
  rw [hout, hfile]
  exact ⟨rfl, rfl, by decide +kernel, FileTree.read_write (FileTree.change_ok hwritten), by decide +kernel, rfl⟩

end Command

end Reshape
