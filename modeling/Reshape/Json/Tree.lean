/-
  Reshape.Json.Tree — JSON values that know where they stand in a text.

  A tree is a value each node of which may have a position, and each member a position of
  its key. `Content` is what a node holds; it does not say what its parts are, so that the
  same type serves trees (the parts are trees) and documents (the parts are handles).
  - `Tree.value` forgets the positions, `Tree.ofValue` supplies none (`value_ofValue`).
  - `Tree.distinct` merges the members of one key: the first keeps its place and key
    position, the last gives the value.
-/

import Reshape.Json.Value
import Reshape.Text.Position

namespace Reshape

structure Member (α : Type) where
  key : String
  position : Option Position
  value : α
  deriving DecidableEq, Repr

/-- What a node holds, its parts being of type `α`. -/
inductive Content (α : Type) where
  | scalar (s : Scalar)
  | array (items : List α)
  | object (members : List (Member α))
  deriving DecidableEq, Repr

namespace Content

variable {α β : Type}

def map (f : α → β) : Content α → Content β
  | .scalar s => .scalar s
  | .array items => .array (items.map f)
  | .object members => .object (members.map fun m => ⟨m.key, m.position, f m.value⟩)

def parts : Content α → List α
  | .scalar _ => []
  | .array items => items
  | .object members => members.map Member.value

/-- The members of an object; nothing else has any. -/
def members : Content α → List (Member α)
  | .object members => members
  | _ => []

def items : Content α → List α
  | .array items => items
  | _ => []

def isObject : Content α → Bool
  | .object _ => true
  | _ => false

def isArray : Content α → Bool
  | .array _ => true
  | _ => false

def string? : Content α → Option String
  | .scalar (.string s) => some s
  | _ => none

def type : Content α → JsonType
  | .scalar s => s.type
  | .array _ => .array
  | .object _ => .object

end Content

/-! ## Members by key -/

namespace Member

variable {α : Type}

/-- The first member with this key. -/
def find? (key : String) : List (Member α) → Option (Member α)
  | [] => none
  | m :: rest => if m.key = key then some m else find? key rest

/-- Gives the member with this key another value, in its place; a new key goes to the end. -/
def put (key : String) (position : Option Position) (value : α) : List (Member α) → List (Member α)
  | [] => [⟨key, position, value⟩]
  | m :: rest => if m.key = key then { m with value := value } :: rest else m :: put key position value rest

def erase (key : String) : List (Member α) → List (Member α)
  | [] => []
  | m :: rest => if m.key = key then rest else m :: erase key rest

/-- Gives the first member with the key `old` the key `new`, in its place. -/
def rekey (old new : String) : List (Member α) → List (Member α)
  | [] => []
  | m :: rest => if m.key = old then { m with key := new } :: rest else m :: rekey old new rest

end Member

/-! ## Trees -/

structure Tree where
  position : Option Position
  content : Content Tree

namespace Tree

def members (t : Tree) : List (Member Tree) := t.content.members
def items (t : Tree) : List Tree := t.content.items
def isObject (t : Tree) : Bool := t.content.isObject
def isArray (t : Tree) : Bool := t.content.isArray
def string? (t : Tree) : Option String := t.content.string?
def type (t : Tree) : JsonType := t.content.type

mutual

def value : Tree → Value
  | ⟨_, .scalar s⟩ => .scalar s
  | ⟨_, .array items⟩ => .array (itemValues items)
  | ⟨_, .object members⟩ => .object (memberValues members)
termination_by structural t => t

def itemValues : List Tree → List Value
  | [] => []
  | t :: rest => t.value :: itemValues rest
termination_by structural items => items

def memberValues : List (Member Tree) → List (String × Value)
  | [] => []
  | ⟨key, _, t⟩ :: rest => (key, t.value) :: memberValues rest
termination_by structural members => members

end

mutual

def ofValue : Value → Tree
  | .scalar s => ⟨none, .scalar s⟩
  | .array items => ⟨none, .array (ofItems items)⟩
  | .object members => ⟨none, .object (ofMembers members)⟩
termination_by structural v => v

def ofItems : List Value → List Tree
  | [] => []
  | v :: rest => ofValue v :: ofItems rest
termination_by structural items => items

def ofMembers : List (String × Value) → List (Member Tree)
  | [] => []
  | (key, v) :: rest => ⟨key, none, ofValue v⟩ :: ofMembers rest
termination_by structural members => members

end

mutual

/-- How many containers and scalars lie above one another, the tree itself included. -/
def height : Tree → Nat
  | ⟨_, .scalar _⟩ => 1
  | ⟨_, .array items⟩ => 1 + itemsHeight items
  | ⟨_, .object members⟩ => 1 + membersHeight members
termination_by structural t => t

def itemsHeight : List Tree → Nat
  | [] => 0
  | t :: rest => max t.height (itemsHeight rest)
termination_by structural items => items

def membersHeight : List (Member Tree) → Nat
  | [] => 0
  | ⟨_, _, t⟩ :: rest => max t.height (membersHeight rest)
termination_by structural members => members

end

mutual

def size : Tree → Nat
  | ⟨_, .scalar _⟩ => 1
  | ⟨_, .array items⟩ => 1 + itemsSize items
  | ⟨_, .object members⟩ => 1 + membersSize members
termination_by structural t => t

def itemsSize : List Tree → Nat
  | [] => 0
  | t :: rest => t.size + itemsSize rest
termination_by structural items => items

def membersSize : List (Member Tree) → Nat
  | [] => 0
  | ⟨_, _, t⟩ :: rest => t.size + membersSize rest
termination_by structural members => members

end

mutual

/-- The tree with one member for each key of each object: the first one's place, the last one's value. -/
def distinct : Tree → Tree
  | ⟨position, .scalar s⟩ => ⟨position, .scalar s⟩
  | ⟨position, .array items⟩ => ⟨position, .array (distinctItems items)⟩
  | ⟨position, .object members⟩ => ⟨position, .object (distinctMembers [] members)⟩
termination_by structural t => t

def distinctItems : List Tree → List Tree
  | [] => []
  | t :: rest => t.distinct :: distinctItems rest
termination_by structural items => items

/-- The members put behind and into those `seen`, one after the other. -/
def distinctMembers (seen : List (Member Tree)) : List (Member Tree) → List (Member Tree)
  | [] => seen
  | ⟨key, position, t⟩ :: rest => distinctMembers (Member.put key position t.distinct seen) rest
termination_by structural members => members

end

def without (t : Tree) (keys : List String) : Tree :=
  match t.content with
  | .object members => { t with content := .object (keys.foldl (fun ms key => Member.erase key ms) members) }
  | _ => t

/-! ## The nodes in order -/

inductive Place where
  | root
  | key (key : String) (position : Option Position)
  | item (index : Nat)
  deriving DecidableEq, Repr

structure Row where
  depth : Nat
  place : Place
  position : Option Position
  type : JsonType
  scalar : Option Scalar

mutual

def rowsAt (depth : Nat) (place : Place) : Tree → List Row
  | ⟨position, .scalar s⟩ => [⟨depth, place, position, s.type, some s⟩]
  | ⟨position, .array items⟩ => ⟨depth, place, position, .array, none⟩ :: itemRows (depth + 1) 0 items
  | ⟨position, .object members⟩ => ⟨depth, place, position, .object, none⟩ :: memberRows (depth + 1) members
termination_by structural t => t

def itemRows (depth index : Nat) : List Tree → List Row
  | [] => []
  | t :: rest => rowsAt depth (.item index) t ++ itemRows depth (index + 1) rest
termination_by structural items => items

def memberRows (depth : Nat) : List (Member Tree) → List Row
  | [] => []
  | ⟨key, position, t⟩ :: rest => rowsAt depth (.key key position) t ++ memberRows depth rest
termination_by structural members => members

end

def rows (t : Tree) : List Row := t.rowsAt 0 .root

mutual

theorem value_ofValue (v : Value) : (ofValue v).value = v := by
  match v with
  | .scalar s => simp [ofValue, value]
  | .array items => simp [ofValue, value, itemValues_ofItems items]
  | .object members => simp [ofValue, value, memberValues_ofMembers members]

theorem itemValues_ofItems (items : List Value) : itemValues (ofItems items) = items := by
  match items with
  | [] => simp [ofItems, itemValues]
  | v :: rest => simp [ofItems, itemValues, value_ofValue v, itemValues_ofItems rest]

theorem memberValues_ofMembers (members : List (String × Value)) :
    memberValues (ofMembers members) = members := by
  match members with
  | [] => simp [ofMembers, memberValues]
  | (key, v) :: rest => simp [ofMembers, memberValues, value_ofValue v, memberValues_ofMembers rest]

end

end Tree

end Reshape
