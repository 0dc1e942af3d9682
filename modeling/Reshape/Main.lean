/-
  Reshape.Main — the command on the real file system.
-/

import Reshape.CommandLine.Program

namespace Reshape

def systemCode : IO.Error → Option UInt32
  | .noFileOrDirectory _ code _ => some code
  | .alreadyExists _ code _ => some code
  | .inappropriateType _ code _ => some code
  | .resourceVanished code _ => some code
  | .otherError code _ => some code
  | _ => none

def FileError.ofSystem (e : IO.Error) : FileError :=
  match systemCode e with
  | some 2 => .notFound
  | some 17 => .alreadyExists
  | some 20 => .notDirectory
  | some 21 => .isDirectory
  | _ => .other e.toString

def attempt {α : Type} (action : IO α) : IO (Except FileError α) := do
  try return .ok (← action)
  catch e => return .error (.ofSystem e)

def isDirectoryAt (path : String) : IO Bool := do
  try (← IO.FS.realPath path).isDir
  catch _ => return false

instance : Surroundings IO where
  isThere path := return (← attempt (IO.FS.realPath path)).isOk
  readBytes path := attempt (IO.FS.readBinFile path)
  isDirectory := isDirectoryAt
  makeDirectory path := attempt (IO.FS.createDir path)
  writeText path text := attempt (IO.FS.writeFile path text)
  print text := IO.print text
  report line := IO.eprintln line

end Reshape

def main (args : List String) : IO UInt32 := return (← Reshape.Command.main (m := IO) args).toUInt32
