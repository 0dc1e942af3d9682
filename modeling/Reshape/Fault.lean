/-
  Reshape.Fault — why a transform cannot be loaded or applied.

  A fault is a cause, the document it lies in, and a position in that document. The cause
  alone determines the message. Conditions that are only worth a warning are apart: the
  work goes on after them.
-/

import Reshape.Directive
import Reshape.Json.Value
import Reshape.Text.Position

namespace Reshape

inductive Side where
  | none
  | source
  | transform
  deriving DecidableEq, Repr

inductive Cause where
  | unknownVerb (name : String)
  | unknownAttribute (key : String)
  | mixedAttributes
  | operandType (verb : Verb) (found : JsonType)
  | missingAttribute (verb : Verb) (missing : Attribute)
  | pathType
  | valueType
  | newNameType
  | pathSyntax (path detail : String)
  | removesRoot
  | replacesRoot
  | renamesUnnamed
  | rootType
  | malformed (detail : String)
  | unreadable (path detail : String)
  deriving DecidableEq, Repr

def Cause.message : Cause → String
  | .unknownVerb name => name ++ " is not a valid JDT verb"
  | .unknownAttribute key => key ++ " is not a valid attribute for this transformation"
  | .mixedAttributes => "Transformation attributes cannot be combined with other properties"
  | .operandType verb found => found.name ++ " is not a valid transform value for " ++ verb.title
  | .missingAttribute verb missing => verb.title ++ " requires the " ++ missing.name ++ " attribute"
  | .pathType => "Path attribute must be a string"
  | .valueType => "Value attribute must be a string"
  | .newNameType => "Rename value must be a string"
  | .pathSyntax path detail => "Invalid path '" ++ path ++ "': " ++ detail
  | .removesRoot => "You cannot remove the root of the document"
  | .replacesRoot => "You cannot replace the root of the document with a non-object value"
  | .renamesUnnamed => "Only the value of a named property can be renamed"
  | .rootType => "The root of a JSON document must be an object"
  | .malformed detail => "Parse error: " ++ detail
  | .unreadable path detail => "Unable to read " ++ path ++ ": " ++ detail

structure Fault where
  cause : Cause
  side : Side
  position : Option Position
  deriving DecidableEq, Repr

namespace Fault

def message (f : Fault) : String := f.cause.message

/-- A fault that lies in no document. -/
def bare (cause : Cause) : Fault := ⟨cause, .none, none⟩

def inTransform (cause : Cause) (position : Option Position) : Fault := ⟨cause, .transform, position⟩

def inSource (cause : Cause) (position : Option Position) : Fault := ⟨cause, .source, position⟩

/-- A text that is no document; which document it should have been is said later. -/
def parsing (detail : String) (position : Option Position) : Fault := ⟨.malformed detail, .none, position⟩

def on (side : Side) (f : Fault) : Fault := { f with side := side }

/-- Supplies a position to a fault that has none. -/
def orAt (position : Option Position) (f : Fault) : Fault := { f with position := f.position.or position }

end Fault

/-- A name or path of the transform that matched nothing in the source. -/
structure Warning where
  name : String
  position : Option Position
  deriving DecidableEq, Repr

def notFoundMessage (name : String) : String := "Node " ++ name ++ " was not found"

def Warning.message (w : Warning) : String := notFoundMessage w.name

end Reshape
