/-
  Reshape.CommandLine.Program — the command.

  The command loads the transform, applies it to the source, and prints the result or
  writes it to a file. It reports what the transform did not find and what went wrong, and
  answers with a number: zero if there is a result, one if not, two if it was not called
  properly. Nothing is printed or written unless there is a result.
  - What stops the command itself, and not the transform, is reported by a message of its
    own (`Stop`): an input that is not there although a file is to be written, and an output
    that cannot be written.
-/

import Reshape.Application
import Reshape.CommandLine.Arguments
import Reshape.CommandLine.Files

namespace Reshape

structure Stop where
  message : String
  cause : Option FileError
  deriving DecidableEq, Repr

def Stop.text (s : Stop) : String :=
  "Error: " ++ s.message ++
    match s.cause with
    | some e => "\n\nCaused by:\n    " ++ e.text
    | none => ""

def Options.layout (o : Options) : Layout := if o.compact then .compact else .indented

def failureStatus : UInt8 := 1
def usageStatus : UInt8 := 2

namespace Command

variable {m : Type → Type} [Monad m] [Surroundings m]

/-- Reports an entry; messages only to those who want them. -/
def reportEntry (o : Options) (e : Entry) : m Unit :=
  if e.level = .message ∧ !o.verbose then return () else Surroundings.report (e.line o.format)

def reportAll (o : Options) : List Entry → m Unit
  | [] => return ()
  | e :: rest => do
    reportEntry o e
    reportAll o rest

def load (o : Options) : m (Except Fault Transformation) := do
  match ← readText o.transform with
  | .error e => return .error ((Fault.bare (.unreadable o.transform e.text)).on .transform)
  | .ok text =>
    return (Transformation.ofText text).map fun t => (t.fromFile o.transform).laidOut o.layout

def applyFile (o : Options) (t : Transformation) : m (Option String × Journal) := do
  match ← readText o.source with
  | .ok text => return t.applyText text (some o.source)
  | .error e => return t.applyUnread o.source e.text (some o.source)

/-- The result of the transform, if there is one; what stands in the way is reported. -/
def produce (o : Options) : m (Option String) := do
  match ← load o with
  | .error f =>
    reportEntry o ⟨.error, f.message, some o.transform, f.position⟩
    return none
  | .ok t =>
    let (result, journal) ← applyFile o t
    reportAll o journal.entries
    return result

/-- Writes the result to a file, in a directory that is made if it is not there. -/
def writeResult (path text : String) : m (Except Stop Unit) := do
  let directory := parentPath path
  let made ← makeDirectories directory.length directory
  match made with
  | .error e => return .error ⟨"Failed to create directory " ++ directory, some e⟩
  | .ok () =>
    match ← Surroundings.writeText path text with
    | .error e => return .error ⟨"Failed to write " ++ path, some e⟩
    | .ok () => return .ok ()

def runToOutput (o : Options) : m (Except Stop Bool) := do
  match ← produce o with
  | none => return .ok false
  | some text =>
    Surroundings.print (text ++ "\n")
    return .ok true

def runToFile (o : Options) (path : String) : m (Except Stop Bool) := do
  if !(← Surroundings.isThere o.source) then
    return .error ⟨"File to transform not found: " ++ o.source, none⟩
  else if !(← Surroundings.isThere o.transform) then
    return .error ⟨"Transform file not found: " ++ o.transform, none⟩
  else
    match ← produce o with
    | none => return .ok false
    | some text =>
      match ← writeResult path text with
      | .error s => return .error s
      | .ok () =>
        reportEntry o ⟨.message, "Wrote " ++ path, none, none⟩
        return .ok true

/-- Runs the command: whether there is a result, or what stopped it. -/
def run (o : Options) : m (Except Stop Bool) :=
  match o.output with
  | some path => runToFile o path
  | none => runToOutput o

def main (args : List String) : m UInt8 := do
  match Request.ofArguments? args with
  | none =>
    Surroundings.report usageText
    return usageStatus
  | some .help =>
    Surroundings.print (helpText ++ "\n")
    return 0
  | some .version =>
    Surroundings.print (versionText ++ "\n")
    return 0
  | some (.run o) =>
    match ← run o with
    | .ok true => return 0
    | .ok false => return failureStatus
    | .error s =>
      Surroundings.report s.text
      return failureStatus

end Command

end Reshape
