/-
  Reshape.Transform.Session — the state of a transform at work.

  A transform works on one document. Whatever it changes there, and whatever it looked for
  and did not find, is an event of the session (`Run.change`, `Run.warn`); the document is
  not touched otherwise. A step of the work may fail; the document then stays as the steps
  before the failure have left it, and so do the events. A step that ends well says whether
  the object it worked on is still there to be worked on: once the object has been removed
  or replaced as a whole, the rest of the work on it is dropped.
-/

import Reshape.Document.Edit
import Reshape.Document.Basic
import Reshape.Fault

namespace Reshape

inductive Event where
  | changed (c : Change)
  | missed (w : Warning)

def Event.warning? : Event → Option Warning
  | .changed _ => none
  | .missed w => some w

structure Session where
  /-- The document under work. -/
  document : Document
  /-- What has happened so far, the latest first. -/
  events : List Event

def Session.warnings (s : Session) : List Warning := s.events.reverse.filterMap Event.warning?

/-- A step of the work: it may change the session, and may fail. -/
abbrev Run := ExceptT Fault (StateM Session)

/-- Whether the object under work is still there to be worked on. -/
inductive Flow where
  | proceed
  | halt
  deriving DecidableEq, Repr

def Flow.join : Flow → Flow → Flow
  | .proceed, flow => flow
  | .halt, _ => .halt

namespace Run

def document : Run Document := do return (← get).document

def change (c : Change) : Run Unit :=
  modify fun s => { s with document := s.document.perform c, events := .changed c :: s.events }

def warn (name : String) (position : Option Position) : Run Unit :=
  modify fun s => { s with events := .missed ⟨name, position⟩ :: s.events }

def fail {α : Type} (cause : Cause) (position : Option Position) : Run α := throw (.inTransform cause position)

def demand {α : Type} : Except Fault α → Run α
  | .ok a => pure a
  | .error f => throw f

/-- Overwrites a node with a tree of the transform. The root can only become another object. -/
def overwrite (target : NodeId) (t : Tree) (position : Option Position) : Run Unit := do
  if (← document).isRoot target && !t.isObject then
    fail .replacesRoot position
  else
    change (.overwrite target t)

end Run

end Reshape
