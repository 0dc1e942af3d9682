/-
  Reshape.Transform.Chain — applying a transform object to an object of the source.

  The work goes through seven stages in a fixed order. The transform's directives are
  checked first, so that an unknown verb changes nothing. Then objects that stand under one
  key on both sides are transformed one into the other, and their keys are done with. Then
  the verbs act, each at most once, an array of operands one operand at a time. The literal
  members that are left are merged last. A stage that halts ends the work on this object.
  - `applyWithin` bounds the depth of the recursion; every nested transform is a proper part
    of the one it is nested in, so the height of the transform is bound enough (`apply`).
-/

import Reshape.Transform.Verbs

namespace Reshape

/-- The operand of the first member that names the verb. -/
def operandOf? (verb : Verb) : List (Member Tree) → Option Tree
  | [] => none
  | m :: rest => if Verb.ofKey? m.key = some verb then some m.value else operandOf? verb rest

inductive Stage where
  | validation
  | recursion
  | verb (v : Verb)
  | literals
  deriving DecidableEq, Repr

namespace Stage

def all : List Stage := [.validation, .recursion] ++ Verb.all.map .verb ++ [.literals]

def name : Stage → String
  | .validation => "validator"
  | .recursion => "recurse"
  | .verb v => v.name
  | .literals => "default"

end Stage

/-! ## The stages -/

def checkVerbs (verbs : List Verb) : List (Member Tree) → Except Fault Unit
  | [] => .ok ()
  | m :: rest =>
    match directiveName? m.key with
    | none => checkVerbs verbs rest
    | some name =>
      match (Verb.ofName? name).filter verbs.contains with
      | some _ => checkVerbs verbs rest
      | none => .error (.inTransform (.unknownVerb name) m.position)

/-- The members that can be transforms of their own: literal keys that hold objects. -/
def nestedTransforms (members : List (Member Tree)) : List (Member Tree) :=
  members.filter fun m => !isDirective m.key && m.value.isObject

/-- Applies the members to the objects that stand under their keys at that moment; answers the keys so done with. -/
def descend (nested : Tree → NodeId → Run Unit) (node : NodeId) : List (Member Tree) → Run (List String)
  | [] => return []
  | m :: rest => do
    let d ← Run.document
    match (d.get? node m.key).filter d.isObject with
    | none => descend nested node rest
    | some child =>
      nested m.value child
      let keys ← descend nested node rest
      return m.key :: keys

def Verb.act (nested : Tree → NodeId → Run Unit) (verb : Verb) (node : NodeId) (operand : Tree) : Run Flow :=
  match verb with
  | .remove => Removal.act node operand
  | .replace => Replacement.act node operand
  | .rename => Renaming.act node operand
  | .merge => Merging.act nested node operand

/-- A verb with one operand after the other, until it halts. -/
def Verb.actAll (nested : Tree → NodeId → Run Unit) (verb : Verb) (node : NodeId) : List Tree → Run Flow
  | [] => return .proceed
  | operand :: rest => do
    match ← verb.act nested node operand with
    | .halt => return .halt
    | .proceed => verb.actAll nested node rest

/-- A verb as the transform states it: with its operand, or with each item of an array of operands. -/
def Verb.apply (nested : Tree → NodeId → Run Unit) (verb : Verb) (transform : Tree) (node : NodeId) : Run Flow :=
  match operandOf? verb transform.members with
  | none => return .proceed
  | some operand =>
    match operand.content with
    | .array operands => verb.actAll nested node operands
    | _ => verb.act nested node operand

/-- A stage of the work: how to go on, and the keys of the transform that are done with. -/
def Stage.run (nested : Tree → NodeId → Run Unit) (stage : Stage) (transform : Tree) (node : NodeId) :
    Run (Flow × List String) :=
  match stage with
  | .validation => do
    Run.demand (checkVerbs Verb.all transform.members)
    return (.proceed, [])
  | .recursion => do
    let done ← descend nested node (nestedTransforms transform.members)
    return (.proceed, done)
  | .verb v => do
    let flow ← v.apply nested transform node
    return (flow, [])
  | .literals => do
    Merging.mergeLiterals node (transform.members.filter fun m => !isDirective m.key)
    return (.proceed, [])

/-! ## The chain -/

def runStages (nested : Tree → NodeId → Run Unit) : List Stage → Tree → NodeId → Run Unit
  | [], _, _ => return
  | stage :: rest, transform, node => do
    let (flow, done) ← stage.run nested transform node
    match flow with
    | .halt => return
    | .proceed => runStages nested rest (transform.without done) node

/-- Applies a transform object to an object, transforms nested `depth` deep at most. -/
def applyWithin : Nat → Tree → NodeId → Run Unit
  | 0, _, _ => return
  | depth + 1, transform, node => runStages (applyWithin depth) Stage.all transform node

def applyTransform (transform : Tree) (node : NodeId) : Run Unit :=
  applyWithin (transform.height + 1) transform node

end Reshape
