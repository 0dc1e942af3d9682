/-
  Reshape.Document.Build — trees laid out as nodes of a document.

  A tree's nodes are stored in preorder, each before its parts, from the first free handle
  on; the handles of the parts follow from the sizes of the trees before them. Positions
  and key positions come along. Since a tree holds nothing of the document it was read
  from, copying within one document and between two is the same.
-/

import Reshape.Document.Basic
import Reshape.Json.Read

namespace Reshape

/-- The handles of trees that are laid out one after the other from `base` on. -/
def itemIds (base : Nat) : List Tree → List NodeId
  | [] => []
  | t :: rest => ⟨base⟩ :: itemIds (base + t.size) rest

def memberIds (base : Nat) : List (Member Tree) → List (Member NodeId)
  | [] => []
  | ⟨key, position, t⟩ :: rest => ⟨key, position, ⟨base⟩⟩ :: memberIds (base + t.size) rest

def Content.ids (base : Nat) : Content Tree → Content NodeId
  | .scalar s => .scalar s
  | .array items => .array (itemIds base items)
  | .object members => .object (memberIds base members)

mutual

/-- The nodes of a tree that is laid out from `base` on and hangs under `parent`. -/
def Tree.nodes (parent : Option NodeId) (base : Nat) : Tree → List Node
  | ⟨position, content⟩ => ⟨content.ids (base + 1), parent, position⟩ :: Content.nodes ⟨base⟩ (base + 1) content
termination_by structural t => t

def Content.nodes (owner : NodeId) (base : Nat) : Content Tree → List Node
  | .scalar _ => []
  | .array items => itemNodes owner base items
  | .object members => memberNodes owner base members
termination_by structural c => c

def itemNodes (owner : NodeId) (base : Nat) : List Tree → List Node
  | [] => []
  | t :: rest => t.nodes (some owner) base ++ itemNodes owner (base + t.size) rest
termination_by structural items => items

def memberNodes (owner : NodeId) (base : Nat) : List (Member Tree) → List Node
  | [] => []
  | ⟨_, _, t⟩ :: rest => t.nodes (some owner) base ++ memberNodes owner (base + t.size) rest
termination_by structural members => members

end

namespace Document

def ofTree (t : Tree) : Document := ⟨(t.nodes none 0).toArray, ⟨0⟩⟩

/-- A document of its own for a value, without positions. -/
def ofValue (v : Value) : Document := ofTree (Tree.ofValue v)

/-- The document that a text spells, laid out once equal keys are merged. -/
def parse (text : String) : Except Failure Document := (Tree.parse text).map ofTree

def nextId (d : Document) : NodeId := ⟨d.nodes.size⟩

def store (d : Document) (more : List Node) : Document := { d with nodes := d.nodes ++ more.toArray }

/-- Copies a tree into the document; its root gets the first free handle and the given parent. -/
def add (d : Document) (t : Tree) (parent : Option NodeId) : Document := d.store (t.nodes parent d.nodes.size)

def subtree (d : Document) (id : NodeId) : Document := ofTree (d.tree id)

end Document

end Reshape
