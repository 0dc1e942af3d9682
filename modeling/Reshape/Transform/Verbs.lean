/-
  Reshape.Transform.Verbs — the four verbs, each with one operand, and the literal members.

  - `remove` takes the name of a property to take out, `true` for the object itself, `false`
    for nothing at all, or an object with a path to everything to take out. What is not
    there is warned about. The root of the document cannot be removed.
  - `replace` with a path and a value makes each match of the path the value, up to the
    object itself; a path that matches nothing is passed over in silence. Any other operand
    becomes the object's own value.
  - `rename` pairs old names of the object's properties with new ones, or states a path and
    one new name for the properties whose values it finds. Only the value of a property can
    be renamed. What is not there is warned about.
  - `merge` applies its operand object to the object as a transform of its own; with a path
    and a value it does so for each match that is an object, appends an array to an array,
    and overwrites whatever else it finds. Any other operand overwrites the object itself.
  - The literal members of a transform are merged last: an array goes to the end of an
    array, two objects have been brought together before, and all else is set.
-/

import Reshape.Transform.Operand

namespace Reshape

/-! ## Removing -/

namespace Removal

open Run (document change warn fail)

def removeSelf (node : NodeId) (position : Option Position) : Run Flow := do
  if (← document).isRoot node then
    fail .removesRoot position
  else
    change (.detach node)
    return .halt

def removeProperty (node : NodeId) (name : String) (position : Option Position) : Run Flow := do
  if ((← document).get? node name).isSome then
    change (.remove node name)
  else
    warn name position
  return .proceed

/-- Takes the matches of a path out, one after the other, up to the object itself. -/
def removeAll (node : NodeId) (position : Option Position) : List NodeId → Run Flow
  | [] => return .proceed
  | target :: rest => do
    if target = node then
      removeSelf node position
    else
      change (.detach target)
      removeAll node position rest

def removeFound (node : NodeId) (operand : Tree) : Run Flow := do
  let attributes ← Run.demand (Attributes.ofOperand [.path] operand)
  match Attribute.path.setting? attributes with
  | none => fail (.missingAttribute .remove .path) operand.position
  | some path =>
    let text ← Run.demand (pathText path)
    let found ← Run.find node text path.position
    if found.isEmpty then warn text path.position
    removeAll node path.position found

def act (node : NodeId) (operand : Tree) : Run Flow :=
  match operand.content with
  | .scalar (.string name) => removeProperty node name operand.position
  | .scalar (.bool true) => removeSelf node operand.position
  | .scalar (.bool false) => return .proceed
  | .object _ => removeFound node operand
  | _ => fail (.operandType .remove operand.type) operand.position

end Removal

/-! ## Replacing -/

namespace Replacement

def replaceSelf (node : NodeId) (operand : Tree) : Run Flow := do
  Run.overwrite node operand operand.position
  return .halt

def replaceAll (node : NodeId) (value : Tree) : List NodeId → Run Flow
  | [] => return .proceed
  | target :: rest => do
    Run.overwrite target value value.position
    if target = node then return .halt else replaceAll node value rest

def act (node : NodeId) (operand : Tree) : Run Flow := do
  if !operand.isObject then
    replaceSelf node operand
  else
    match ← Run.demand (Target.ofOperand? .replace operand) with
    | none => replaceSelf node operand
    | some target =>
      let found ← Run.find node target.path target.pathPosition
      replaceAll node target.value found

end Replacement

/-! ## Renaming -/

namespace Renaming

open Run (document change warn fail)

def renameNode (target : NodeId) (name : String) (position : Option Position) : Run Unit := do
  match (← document).slot target with
  | .property _ _ => change (.rename target name)
  | _ => fail .renamesUnnamed position

def renamePairs (node : NodeId) : List (Member Tree) → Run Unit
  | [] => return
  | pair :: rest => do
    match pair.value.string? with
    | none => fail .newNameType pair.value.position
    | some name =>
      match (← document).get? node pair.key with
      | some target => renameNode target name pair.position
      | none => warn pair.key pair.position
      renamePairs node rest

def renameAll (name : String) (position : Option Position) : List NodeId → Run Unit
  | [] => return
  | target :: rest => do
    renameNode target name position
    renameAll name position rest

def act (node : NodeId) (operand : Tree) : Run Flow := do
  if !operand.isObject then
    fail (.operandType .rename operand.type) operand.position
  else
    match ← Run.demand (Target.ofOperand? .rename operand) with
    | none =>
      renamePairs node operand.members
      return .proceed
    | some target =>
      match target.value.string? with
      | none => fail .valueType target.value.position
      | some name =>
        let found ← Run.find node target.path target.pathPosition
        if found.isEmpty then warn target.path target.pathPosition
        renameAll name operand.position found
        return .proceed

end Renaming

/-! ## Merging -/

/-- The change that brings one literal member into an object, if one is needed. -/
def Document.literalChange? (d : Document) (object : NodeId) (m : Member Tree) : Option Change :=
  match d.get? object m.key with
  | some existing =>
    if d.isArray existing && m.value.isArray then some (.append existing m.value.items)
    else if d.isObject existing && m.value.isObject then none
    else some (.overwrite existing m.value)
  | none => some (.insert object m)

namespace Merging

def mergeLiterals (node : NodeId) : List (Member Tree) → Run Unit
  | [] => return
  | m :: rest => do
    match (← Run.document).literalChange? node m with
    | some c => Run.change c
    | none => pure ()
    mergeLiterals node rest

/-- Brings a value together with one match of a path. The run halts if that overwrote the object itself. -/
def mergeOne (nested : Tree → NodeId → Run Unit) (node : NodeId) (value : Tree) (position : Option Position)
    (target : NodeId) : Run Flow := do
  let d ← Run.document
  if d.isObject target && value.isObject then
    nested value target
    return .proceed
  else if d.isArray target && value.isArray then
    Run.change (.append target value.items)
    return .proceed
  else
    Run.overwrite target value position
    return if target = node then .halt else .proceed

def mergeAll (nested : Tree → NodeId → Run Unit) (node : NodeId) (value : Tree) (position : Option Position) :
    List NodeId → Run Flow
  | [] => return .proceed
  | target :: rest => do
    let flow ← mergeOne nested node value position target
    let after ← mergeAll nested node value position rest
    return flow.join after

/-- The verb with one operand; `nested` applies a transform to an object. -/
def act (nested : Tree → NodeId → Run Unit) (node : NodeId) (operand : Tree) : Run Flow := do
  if !operand.isObject then
    Run.overwrite node operand operand.position
    return .halt
  else
    match ← Run.demand (Target.ofOperand? .merge operand) with
    | none =>
      nested operand node
      return .proceed
    | some target =>
      let found ← Run.find node target.path target.pathPosition
      mergeAll nested node target.value operand.position found

end Merging

end Reshape
