/-
  Reshape.CommandLine.Files — what the command needs of the world around it.

  The command reads and writes files by path, makes directories, prints its result and
  reports what went wrong. `Surroundings` is all of that; the command is written against it,
  so that it runs on the real file system and on one that is only a value.
  - A directory is made together with those above it that are missing: a path is tried
    first, and only where it leads nowhere are the paths above it made (`makeDirectories`).
  - A file system that is a value answers what is asked about a path, and an operation on it
    gives the file system that it leaves behind, whether it succeeds or not. A `Scene` is
    such a file system with what has been printed and reported, and carries the command as
    state.
-/

import Reshape.Text.Basic

namespace Reshape

inductive FileError where
  | notFound
  | alreadyExists
  | notDirectory
  | isDirectory
  | notText
  | other (detail : String)
  deriving DecidableEq, Repr

def FileError.text : FileError → String
  | .notFound => "No such file or directory (os error 2)"
  | .alreadyExists => "File exists (os error 17)"
  | .notDirectory => "Not a directory (os error 20)"
  | .isDirectory => "Is a directory (os error 21)"
  | .notText => "stream did not contain valid UTF-8"
  | .other detail => detail

class Surroundings (m : Type → Type) where
  /-- Whether there is a file or directory at a path. -/
  isThere : String → m Bool
  /-- Whether there is a directory at a path. -/
  isDirectory : String → m Bool
  /-- The bytes of a file. -/
  readBytes : String → m (Except FileError ByteArray)
  /-- Makes a directory, where there must be nothing yet, in one that must be there. -/
  makeDirectory : String → m (Except FileError Unit)
  /-- Makes a file with this text, or overwrites one. -/
  writeText : String → String → m (Except FileError Unit)
  /-- Prints on the standard output. -/
  print : String → m Unit
  /-- Reports a line. -/
  report : String → m Unit

section

variable {m : Type → Type} [Monad m] [Surroundings m]

def readText (path : String) : m (Except FileError String) := do
  match ← Surroundings.readBytes path with
  | .error e => return .error e
  | .ok bytes =>
    match String.fromUTF8? bytes with
    | some text => return .ok text
    | none => return .error .notText

/-- Whether a piece of a path changes nothing: it is empty or a point. -/
def isIdlePiece (piece : List Char) : Bool := piece == [] || piece == ['.']

/-- The pieces without the idle ones at their end; a first piece stays. -/
def dropIdleEnd (all : List (List Char)) : List (List Char) :=
  match all with
  | [] => []
  | first :: rest => first :: (rest.reverse.dropWhile isIdlePiece).reverse

/-- The path of the directory that a path lies in; empty for a path of a single piece. -/
def parentPath (path : String) : String :=
  String.ofList (['/'].intercalate (dropIdleEnd (dropIdleEnd (pieces path.toList)).dropLast))

def ensureDirectory (path : String) : m (Except FileError Unit) := do
  match ← Surroundings.makeDirectory path with
  | .ok () => return .ok ()
  | .error e => return if ← Surroundings.isDirectory path then .ok () else .error e

/-- Makes a directory, and first those above it while they are missing, `depth` paths at most. What has been
    made stays, even if the rest cannot be made; the empty path is the working directory. -/
def makeDirectories : Nat → String → m (Except FileError Unit)
  | 0, _ => return .ok ()
  | depth + 1, path => do
    if path.isEmpty then return .ok ()
    match ← ensureDirectory path with
    | .error .notFound =>
      match ← makeDirectories depth (parentPath path) with
      | .ok () => ensureDirectory path
      | .error e => return .error e
    | made => return made

end

/-! ## Scenes -/

/-- A file system that is a value. -/
class FileSystem (F : Type) where
  /-- Whether there is a file or directory at a path. -/
  isThere : F → String → Bool
  /-- Whether there is a directory at a path. -/
  isDirectory : F → String → Bool
  /-- The bytes of a file. -/
  readBytes : F → String → Except FileError ByteArray
  /-- Makes a directory. -/
  makeDirectory : F → String → Except FileError Unit × F
  /-- Makes a file with this text, or overwrites one. -/
  writeText : F → String → String → Except FileError Unit × F

structure Scene (F : Type) where
  files : F
  printed : String
  reported : List String

variable {F : Type}

def Scene.change (act : F → Except FileError Unit × F) : StateM (Scene F) (Except FileError Unit) :=
  modifyGet fun s => ((act s.files).1, { s with files := (act s.files).2 })

instance [FileSystem F] : Surroundings (StateM (Scene F)) where
  isThere path := return FileSystem.isThere (← get).files path
  isDirectory path := return FileSystem.isDirectory (← get).files path
  readBytes path := return FileSystem.readBytes (← get).files path
  makeDirectory path := Scene.change (FileSystem.makeDirectory · path)
  writeText path text := Scene.change (FileSystem.writeText · path text)
  print text := modify fun s => { s with printed := s.printed ++ text }
  report line := modify fun s => { s with reported := s.reported ++ [line] }

end Reshape
