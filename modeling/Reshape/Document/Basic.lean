/-
  Reshape.Document — documents that can be changed in place.

  A document keeps its nodes in one store and names them by handles that never change. A
  node holds a scalar, or the handles of its parts, and knows its parent and its position.
  What is taken out of the document or overwritten stays in the store, without a parent;
  nothing is ever removed from it, so a handle stays good.
  - `Document.tree` reads the node and all below it as a tree, `Document.value` as a value.
    The reading goes down at most as many levels as the store has nodes, which no document
    without a node above itself exceeds.
  - `Document.slot` is the node's first place in its parent.
  - A pointer is followed key by key and index by index. A path is first brought into its
    strict form, then evaluated on the value of the node it starts from; each location it
    finds is followed back to a node, so that what is found can be changed in place.
-/

import Reshape.Json.Tree
import Reshape.Path.Loose
import Reshape.Path.Read
import Reshape.Path.Select

namespace Reshape

structure NodeId where
  index : Nat
  deriving DecidableEq, Repr, Inhabited

structure Node where
  content : Content NodeId
  parent : Option NodeId
  position : Option Position
  deriving DecidableEq, Repr

instance : Inhabited Node := ⟨⟨.scalar .null, none, none⟩⟩

inductive Slot where
  | none
  | property (object : NodeId) (key : String)
  | element (array : NodeId) (index : Nat)
  deriving DecidableEq, Repr

/-- A document: its nodes, and which of them is the root. -/
structure Document where
  nodes : Array Node
  root : NodeId
  deriving Inhabited

namespace Document

/-- The node of a handle. A handle of another document may have none here and then names a null by itself. -/
def node (d : Document) (id : NodeId) : Node := d.nodes[id.index]?.getD default

def content (d : Document) (id : NodeId) : Content NodeId := (d.node id).content
def parent (d : Document) (id : NodeId) : Option NodeId := (d.node id).parent
def position (d : Document) (id : NodeId) : Option Position := (d.node id).position

def isRoot (d : Document) (id : NodeId) : Bool := id == d.root
def isObject (d : Document) (id : NodeId) : Bool := (d.content id).isObject
def isArray (d : Document) (id : NodeId) : Bool := (d.content id).isArray
def string? (d : Document) (id : NodeId) : Option String := (d.content id).string?
def type (d : Document) (id : NodeId) : JsonType := (d.content id).type

/-- The members of an object; nothing else has any. -/
def members (d : Document) (id : NodeId) : List (Member NodeId) := (d.content id).members

def items (d : Document) (id : NodeId) : List NodeId := (d.content id).items

def member? (d : Document) (object : NodeId) (key : String) : Option (Member NodeId) :=
  Member.find? key (d.members object)

def get? (d : Document) (object : NodeId) (key : String) : Option NodeId :=
  (d.member? object key).map Member.value

/-- The first place of the node in its parent. -/
def slot (d : Document) (id : NodeId) : Slot :=
  match d.parent id with
  | none => .none
  | some parent =>
    match d.content parent with
    | .scalar _ => .none
    | .object members =>
      match members.find? fun m => m.value == id with
      | some m => .property parent m.key
      | none => .none
    | .array items =>
      match items.findIdx? (· == id) with
      | some index => .element parent index
      | none => .none

/-! ## Reading -/

/-- The node and what is below it, down to `levels` levels. -/
def treeWithin (d : Document) : Nat → NodeId → Tree
  | 0, id => ⟨d.position id, .scalar .null⟩
  | levels + 1, id => ⟨d.position id, (d.content id).map (d.treeWithin levels)⟩

def tree (d : Document) (id : NodeId) : Tree := d.treeWithin d.nodes.size id

def value (d : Document) (id : NodeId) : Value := (d.tree id).value

def rootValue (d : Document) : Value := d.value d.root

/-! ## Finding -/

def tokenPart? (d : Document) (id : NodeId) (token : List Char) : Option NodeId :=
  match d.content id with
  | .object _ => d.get? id (String.ofList token)
  | .array items => (readIndex? token).bind fun i => items[i]?
  | .scalar _ => none

def followTokens? (d : Document) (id : NodeId) : List (List Char) → Option NodeId
  | [] => some id
  | token :: rest => (d.tokenPart? id token).bind fun part => d.followTokens? part rest

def resolve? (d : Document) (id : NodeId) (pointer : List Char) : Option NodeId :=
  (pointerTokens? pointer).bind (d.followTokens? id)

/-- The nodes that a path finds from a node on, in order. The node itself may be among them. -/
def query (d : Document) (id : NodeId) (path : String) : Except Path.Malformed (List NodeId) :=
  (Path.Query.read (Path.normalize path.toList)).map fun q =>
    (q.locations (d.value id)).filterMap fun location => d.resolve? id location.pointer

end Document

end Reshape
