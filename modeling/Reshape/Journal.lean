/-
  Reshape.Journal — what is reported while transforms are applied.

  A journal belongs to one application, or to several of one transform to one source. It
  knows the files that the source and the transform come from, if they have any, and names
  the one that an entry is about. Entries are kept in the order in which they came.
  - For people an entry is a line with the file, the position, the level and the message,
    whatever of these it has, with colons between them; a message goes without its level.
    For programs it is one JSON object that leaves out the file and the position it does
    not have.
-/

import Reshape.Fault
import Reshape.Json.Print

namespace Reshape

inductive Level where
  | message
  | warning
  | error
  deriving DecidableEq, Repr

def Level.name : Level → String
  | .message => "message"
  | .warning => "warning"
  | .error => "error"

structure Entry where
  level : Level
  message : String
  file : Option String
  position : Option Position
  deriving DecidableEq, Repr

structure Journal where
  sourceFile : Option String
  transformFile : Option String
  entries : List Entry
  deriving DecidableEq, Repr

namespace Journal

def file (j : Journal) : Side → Option String
  | .none => none
  | .source => j.sourceFile
  | .transform => j.transformFile

def add (j : Journal) (e : Entry) : Journal := { j with entries := j.entries ++ [e] }

def message (j : Journal) (text : String) : Journal := j.add ⟨.message, text, none, none⟩

def warn (j : Journal) (w : Warning) (side : Side) : Journal := j.add ⟨.warning, w.message, j.file side, w.position⟩

def error (j : Journal) (text : String) (side : Side) (position : Option Position) : Journal :=
  j.add ⟨.error, text, j.file side, position⟩

def fault (j : Journal) (f : Fault) : Journal := j.error f.message f.side f.position

def warnAll (j : Journal) (warnings : List Warning) : Journal := warnings.foldl (fun j w => j.warn w .transform) j

theorem entries_warnAll (j : Journal) (ws : List Warning) :
    (j.warnAll ws).entries = j.entries ++ ws.map fun w => ⟨.warning, w.message, j.transformFile, w.position⟩ := by
  unfold warnAll
  induction ws generalizing j with
  | nil => simp
  | cons w rest ih =>
    rw [List.foldl_cons, ih]
    simp [warn, add, file]

def hasErrors (j : Journal) : Bool := j.entries.any (·.level == .error)

def warningCount (j : Journal) : Nat := j.entries.countP (·.level == .warning)

/-- Warnings are no errors. -/
theorem hasErrors_warnAll (j : Journal) (ws : List Warning) : (j.warnAll ws).hasErrors = j.hasErrors := by
  simp [hasErrors, entries_warnAll]

end Journal

/-! ## Lines -/

inductive MessageFormat where
  | human
  | json
  deriving DecidableEq, Repr

def MessageFormat.ofName? : String → Option MessageFormat
  | "human" => some .human
  | "json" => some .json
  | _ => none

namespace Entry

/-- The file and the position, each with a colon behind it, and a space behind both. -/
def place (e : Entry) : String :=
  match e.file, e.position with
  | some file, some p => file ++ ":" ++ p.text ++ ": "
  | some file, none => file ++ ": "
  | none, some p => p.text ++ ": "
  | none, none => ""

def humanLine (e : Entry) : String :=
  match e.level with
  | .message => e.place ++ e.message
  | level => e.place ++ level.name ++ ": " ++ e.message

def toValue (e : Entry) : Value :=
  .object <|
    [("level", .ofString e.level.name), ("message", .ofString e.message)] ++
      (e.file.map fun file => ("file", Value.ofString file)).toList ++
      (e.position.map fun p => [("line", Value.ofNat p.line), ("column", Value.ofNat p.column)]).getD []

def line (format : MessageFormat) (e : Entry) : String :=
  match format with
  | .human => e.humanLine
  | .json => e.toValue.text .compact

end Entry

end Reshape
