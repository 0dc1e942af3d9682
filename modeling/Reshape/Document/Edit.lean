/-
  Reshape.Document.Edit — changing a document.

  Every change keeps all handles. A node that is taken out or replaced loses its parent and
  nothing else; a change that does not fit the kind of node it is asked of does nothing.
  Where a change may find nothing to do, it answers no document (`removeProperty?`,
  `renameProperty?`, `detach?`).
  - Setting a property that is there keeps its place and its key position.
  - A renamed property keeps its place and its key position, and another property of the
    new name is dropped.
  - A replaced node keeps its handle and its parent, and takes the position of what
    replaced it.
  - Everything that a transform does to its document is one of six changes, each made at one
    node (`Change`). That a document is only ever changed in this way is what lets one say
    of a run which nodes it has touched.
-/

import Reshape.Document.Build

namespace Reshape.Document

def modify (d : Document) (id : NodeId) (f : Node → Node) : Document :=
  { d with nodes := d.nodes.modify id.index f }

def withContent (d : Document) (id : NodeId) (content : Content NodeId) : Document :=
  d.modify id fun n => { n with content := content }

def withParent (d : Document) (id : NodeId) (parent : Option NodeId) : Document :=
  d.modify id fun n => { n with parent := parent }

def orphan (d : Document) (ids : List NodeId) : Document := ids.foldl (fun d id => d.withParent id none) d

/-- Overwrites a node with a tree; what was below it loses its parent. -/
def replace (d : Document) (target : NodeId) (t : Tree) : Document :=
  let d := d.orphan (d.content target).parts
  let base := d.nodes.size
  (d.store (t.content.nodes target base)).modify target fun n =>
    { n with content := t.content.ids base, position := t.position }

/-- Gives the property `key` of an object the value `value`, in its place or at the end. -/
def setProperty (d : Document) (object : NodeId) (key : String) (position : Option Position) (value : NodeId) :
    Document :=
  match d.content object with
  | .object members =>
    let put := d.withContent object (.object (Member.put key position value members))
    let freed := match Member.find? key members with
      | some m => if m.value = value then put else put.withParent m.value none
      | none => put
    freed.withParent value (some object)
  | _ => d

def removeProperty? (d : Document) (object : NodeId) (key : String) : Option Document :=
  match d.content object with
  | .object members =>
    (Member.find? key members).map fun m =>
      (d.withContent object (.object (Member.erase key members))).withParent m.value none
  | _ => none

def renameProperty? (d : Document) (object : NodeId) (old new : String) : Option Document :=
  match d.get? object old with
  | none => none
  | some _ =>
    if old = new then some d
    else
      let cleared := (d.removeProperty? object new).getD d
      some (cleared.withContent object (.object (Member.rekey old new (cleared.members object))))

def push (d : Document) (array value : NodeId) : Document :=
  match d.content array with
  | .array items => (d.withContent array (.array (items ++ [value]))).withParent value (some array)
  | _ => d

def append (d : Document) (array : NodeId) (items : List Tree) : Document :=
  items.foldl (fun d t => (d.add t none).push array d.nextId) d

def detach? (d : Document) (id : NodeId) : Option Document :=
  match d.slot id with
  | .none => none
  | .property object key => d.removeProperty? object key
  | .element array index =>
    some ((d.withContent array (.array ((d.items array).eraseIdx index))).withParent id none)

end Reshape.Document

namespace Reshape

inductive Change where
  /-- The node takes over a tree. -/
  | overwrite (target : NodeId) (t : Tree)
  /-- Copies of the trees go to the end of an array. -/
  | append (array : NodeId) (items : List Tree)
  /-- The node leaves its parent. -/
  | detach (target : NodeId)
  /-- The property leaves its object. -/
  | remove (object : NodeId) (key : String)
  /-- The property that holds the node gets another name. -/
  | rename (target : NodeId) (name : String)
  /-- A copy of the member becomes a property of an object. -/
  | insert (object : NodeId) (m : Member Tree)

namespace Document

/-- Gives the property that holds a node another name; a node that hangs elsewhere has none to change. -/
def renameHolder? (d : Document) (target : NodeId) (name : String) : Option Document :=
  match d.slot target with
  | .property object key => some ((d.renameProperty? object key name).getD d)
  | _ => none

def perform (d : Document) : Change → Document
  | .overwrite target t => d.replace target t
  | .append array items => d.append array items
  | .detach target => (d.detach? target).getD d
  | .remove object key => (d.removeProperty? object key).getD d
  | .rename target name => (d.renameHolder? target name).getD d
  | .insert object m => (d.add m.value none).setProperty object m.key m.position d.nextId

end Document

end Reshape
