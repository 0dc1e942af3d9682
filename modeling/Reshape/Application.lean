/-
  Reshape.Application — a transform that is loaded, and its application to sources.

  A transform is loaded from a text, from bytes or from a value; its root must be an
  object. It can then be applied to any number of sources, none of which changes it. A
  source is a document whose root is an object too; applied to a text, the transform gives
  the text of the result, or reports the one error that stood in the way and gives nothing.
  Applied to several texts, it reports on all of them to the same log, one after the other.
-/

import Reshape.Journal
import Reshape.Json.Print
import Reshape.Transform.Chain

namespace Reshape

def notTextDetail : String := "stream did not contain valid UTF-8"

def Fault.ofFailure (f : Failure) : Fault := .parsing f.text (some f.position)

structure Transformation where
  tree : Tree
  isObject : tree.isObject = true
  file : Option String
  layout : Layout

namespace Transformation

def ofTree (t : Tree) : Except Fault Transformation :=
  if h : t.isObject then .ok ⟨t, h, none, .indented⟩ else .error (.inTransform .rootType t.position)

def ofText (text : String) : Except Fault Transformation :=
  match Tree.parse text with
  | .ok t => ofTree t
  | .error f => .error ((Fault.ofFailure f).on .transform)

def ofBytes (bytes : ByteArray) : Except Fault Transformation :=
  match String.fromUTF8? bytes with
  | some text => ofText text
  | none => .error ((Fault.bare (.unreadable "<transform>" notTextDetail)).on .transform)

def fromFile (t : Transformation) (file : String) : Transformation := { t with file := some file }

def laidOut (t : Transformation) (layout : Layout) : Transformation := { t with layout := layout }

def journal (t : Transformation) (sourceFile : Option String) : Journal := ⟨sourceFile, t.file, []⟩

/-- Applies the transform to a document; it keeps the changes made before a fault. -/
def applyTo (t : Transformation) (source : Document) : Except Fault Unit × Session :=
  if source.isObject source.root then
    ((applyTransform t.tree source.root).run.run ⟨source, []⟩ : Id _)
  else (.error (.inSource .rootType (source.position source.root)), ⟨source, []⟩)

def applyDocument (t : Transformation) (source : Document) (j : Journal) : Except Fault Unit × Document × Journal :=
  let (result, session) := t.applyTo source
  (result, session.document, j.warnAll session.warnings)

def applyText (t : Transformation) (text : String) (sourceFile : Option String) : Option String × Journal :=
  let j := t.journal sourceFile
  match Document.parse text with
  | .error f => (none, j.fault ((Fault.ofFailure f).on .source))
  | .ok source =>
    let (result, changed, j) := t.applyDocument source j
    match result with
    | .ok () => (if j.hasErrors then none else some (changed.rootValue.text t.layout), j)
    | .error f => (none, j.fault f)

/-- Applies the transform to one text after the other. Each application keeps a journal of its own; what it
    reports goes to the log that they share, behind what that holds already. -/
def applyTexts (t : Transformation) (log : List Entry) : List String → List (Option String) × List Entry
  | [] => ([], log)
  | text :: rest =>
    let (result, j) := t.applyText text none
    let (results, log) := t.applyTexts (log ++ j.entries) rest
    (result :: results, log)

def applyUnread (t : Transformation) (path detail : String) (sourceFile : Option String) : Option String × Journal :=
  (none, (t.journal sourceFile).fault ((Fault.bare (.unreadable path detail)).on .source))

def applyBytes (t : Transformation) (bytes : ByteArray) : Option String × Journal :=
  match String.fromUTF8? bytes with
  | some text => t.applyText text none
  | none => t.applyUnread "<source>" notTextDetail none

end Transformation

end Reshape
