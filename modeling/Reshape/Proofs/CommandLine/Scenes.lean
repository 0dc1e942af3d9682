/-
  Reshape.Proofs.CommandLine.Scenes — what the actions of the command do to a scene.

  An action of the command is played in a scene: it gives a result and leaves a scene behind. To read
  changes nothing. To make directories changes the files, and what has been printed and reported is
  neither changed nor looked at (`MakesOnly`), so that it makes no difference what the command has
  reported before it writes.

  - `play_readText`: what reading a file gives.
  - `makeDirectories_makesOnly`: however deep they lie, the only operations are those that make
    directories.
  - `writeResult_ok`: a result that can be written is written in one operation, to files in which
    directories have been made and nothing else.
-/

import Mathlib.Logic.Relation
import Mathlib.Tactic.Choose
import Reshape.CommandLine.Program
import Reshape.CommandLine.Files

namespace Reshape

open Relation (ReflTransGen)

variable {F : Type} {α β : Type}

/-! ## Playing an action -/

namespace Scene

/-- What an action gives in a scene, and the scene that it leaves behind. -/
def play (s : Scene F) (act : StateM (Scene F) α) : α × Scene F := act.run s

@[simp] theorem play_pure (s : Scene F) (a : α) : s.play (pure a) = (a, s) := rfl

@[simp] theorem play_bind (s : Scene F) (act : StateM (Scene F) α) (next : α → StateM (Scene F) β) :
    s.play (act >>= next) = (s.play act).2.play (next (s.play act).1) := rfl

variable [FileSystem F]

@[simp] theorem play_isThere (s : Scene F) (path : String) :
    s.play (Surroundings.isThere path) = (FileSystem.isThere s.files path, s) := rfl

@[simp] theorem play_readBytes (s : Scene F) (path : String) :
    s.play (Surroundings.readBytes path) = (FileSystem.readBytes s.files path, s) := rfl

@[simp] theorem play_writeText (s : Scene F) (path text : String) :
    s.play (Surroundings.writeText path text) =
      ((FileSystem.writeText s.files path text).1, { s with files := (FileSystem.writeText s.files path text).2 }) :=
  rfl

@[simp] theorem play_print (s : Scene F) (text : String) :
    s.play (Surroundings.print text) = ((), { s with printed := s.printed ++ text }) := rfl

@[simp] theorem play_report (s : Scene F) (line : String) :
    s.play (Surroundings.report line) = ((), { s with reported := s.reported ++ [line] }) := rfl

end Scene

variable [FileSystem F]

/-! ## Reading -/

def textOf (read : Except FileError ByteArray) : Except FileError String :=
  read.bind fun bytes =>
    match String.fromUTF8? bytes with
    | some text => .ok text
    | none => .error .notText

@[simp] theorem play_readText (s : Scene F) (path : String) :
    s.play (readText path) = (textOf (FileSystem.readBytes s.files path), s) := by
  rw [readText, Scene.play_bind, Scene.play_readBytes, textOf]
  cases FileSystem.readBytes s.files path with
  | error e => rfl
  | ok bytes =>
    simp only [Except.bind]
    cases String.fromUTF8? bytes <;> rfl

/-! ## Making directories -/

def MakesDirectory (before after : F) : Prop := ∃ path, after = (FileSystem.makeDirectory before path).2

/-- An action that makes directories, if anything, and does not look at what has been printed and reported. -/
def MakesOnly (act : StateM (Scene F) α) : Prop :=
  ∃ f : F → α × F, (∀ files, ReflTransGen MakesDirectory files (f files).2) ∧
    ∀ s : Scene F, s.play act = ((f s.files).1, { s with files := (f s.files).2 })

namespace MakesOnly

theorem pure (a : α) : MakesOnly (Pure.pure a : StateM (Scene F) α) :=
  ⟨fun files => (a, files), fun _ => .refl, fun _ => rfl⟩

theorem bind {act : StateM (Scene F) α} {next : α → StateM (Scene F) β} (h : MakesOnly act)
    (hnext : ∀ a, MakesOnly (next a)) : MakesOnly (act >>= next) := by
  obtain ⟨f, hf, hplay⟩ := h
  choose g hg hplays using hnext
  refine ⟨fun files => g (f files).1 (f files).2, fun files => (hf files).trans (hg _ _), fun s => ?_⟩
  rw [Scene.play_bind, hplay, hplays]

theorem isDirectory (path : String) : MakesOnly (Surroundings.isDirectory path : StateM (Scene F) Bool) :=
  ⟨fun files => (FileSystem.isDirectory files path, files), fun _ => .refl, fun _ => rfl⟩

theorem makeDirectory (path : String) :
    MakesOnly (Surroundings.makeDirectory path : StateM (Scene F) (Except FileError Unit)) :=
  ⟨(FileSystem.makeDirectory · path), fun _ => .single ⟨path, rfl⟩, fun _ => rfl⟩

end MakesOnly

theorem ensureDirectory_makesOnly (path : String) :
    MakesOnly (ensureDirectory path : StateM (Scene F) (Except FileError Unit)) := by
  refine (MakesOnly.makeDirectory path).bind fun made => ?_
  cases made with
  | ok => exact .pure _
  | error e => exact (MakesOnly.isDirectory path).bind fun there => .pure _

theorem makeDirectories_makesOnly (depth : Nat) (path : String) :
    MakesOnly (makeDirectories depth path : StateM (Scene F) (Except FileError Unit)) := by
  induction depth generalizing path with
  | zero => exact .pure _
  | succ depth ih =>
    rw [makeDirectories]
    split
    · exact .pure _
    · refine (ensureDirectory_makesOnly path).bind fun made => ?_
      split
      · refine (ih (parentPath path)).bind fun above => ?_
        cases above with
        | ok => exact ensureDirectory_makesOnly path
        | error e => exact .pure _
      · exact .pure _

/-! ## Writing the result -/

namespace Command

/-- If a result can be written, directories are made, and then the result is written in one operation; what has
    been printed and reported makes no difference and stays. -/
theorem writeResult_ok {path text : String} {s : Scene F} (h : (s.play (writeResult path text)).1 = .ok ()) :
    ∃ made after : F, ReflTransGen MakesDirectory s.files made ∧
      FileSystem.writeText made path text = (.ok (), after) ∧
      ∀ lines, ({ s with reported := lines } : Scene F).play (writeResult path text) =
        (.ok (), { s with files := after, reported := lines }) := by
  obtain ⟨f, hf, hplay⟩ := makeDirectories_makesOnly (F := F) (parentPath path).length (parentPath path)
  have hmade : (f s.files).1 = .ok () := by
    cases hr : (f s.files).1 with
    | ok => rfl
    | error e =>
      rw [writeResult, Scene.play_bind, hplay, hr] at h
      cases h
  have hwritten : (FileSystem.writeText (f s.files).2 path text).1 = .ok () := by
    cases hr : (FileSystem.writeText (f s.files).2 path text).1 with
    | ok => rfl
    | error e =>
      simp only [writeResult, Scene.play_bind, hplay, hmade, Scene.play_writeText, hr] at h
      cases h
  refine ⟨_, _, hf s.files, Prod.ext hwritten rfl, fun lines => ?_⟩
  simp only [writeResult, Scene.play_bind, hplay, hmade, Scene.play_writeText, hwritten, Scene.play_pure]

end Command

end Reshape
