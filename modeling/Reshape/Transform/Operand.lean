/-
  Reshape.Transform.Operand — what a verb is given to act with.

  A verb's operand is the value under its key. An operand object that has directive keys
  states attributes, and then nothing but attributes: the first key that names none the
  verb accepts is a fault, and so is any other member beside them. An operand without
  directive keys is plain data.
  - An attribute stated more than once keeps its first place and takes its last value; the
    repetition counts as something beside the attributes.
  - A path and a value go together (`Target`): one without the other is a fault.
-/

import Reshape.Transform.Session

namespace Reshape

/-- Attributes with what they are set to, in the order of their first statement. -/
abbrev Attributes := List (Attribute × Tree)

def Attribute.setting? (named : Attribute) : Attributes → Option Tree
  | [] => none
  | (a, t) :: rest => if a = named then some t else named.setting? rest

namespace Attributes

/-- Sets an attribute, in its place if it is set already. -/
def put (named : Attribute) (t : Tree) : Attributes → Attributes
  | [] => [(named, t)]
  | (a, old) :: rest => if a = named then (a, t) :: rest else (a, old) :: put named t rest

def collect (accepted : List Attribute) (seen : Attributes) : List (Member Tree) → Except Fault Attributes
  | [] => .ok seen
  | m :: rest =>
    match directiveName? m.key with
    | none => collect accepted seen rest
    | some name =>
      match (Attribute.ofName? name).filter accepted.contains with
      | some named => collect accepted (put named m.value seen) rest
      | none => .error (.inTransform (.unknownAttribute m.key) m.position)

/-- The attributes that an operand states, if it states nothing else. -/
def ofOperand (accepted : List Attribute) (operand : Tree) : Except Fault Attributes :=
  (collect accepted [] operand.members).bind fun attributes =>
    if attributes.isEmpty || attributes.length == operand.members.length then .ok attributes
    else .error (.inTransform .mixedAttributes operand.position)

end Attributes

def pathText (path : Tree) : Except Fault String :=
  match path.string? with
  | some text => .ok text
  | none => .error (.inTransform .pathType path.position)

structure Target where
  path : String
  pathPosition : Option Position
  value : Tree

/-- The path and value among an operand's attributes; nothing if it has neither. -/
def Target.ofAttributes? (verb : Verb) (attributes : Attributes) (operand : Tree) :
    Except Fault (Option Target) :=
  match Attribute.path.setting? attributes, Attribute.value.setting? attributes with
  | none, none => .ok none
  | some path, some value => (pathText path).map fun text => some ⟨text, path.position, value⟩
  | none, some _ => .error (.inTransform (.missingAttribute verb .path) operand.position)
  | some _, none => .error (.inTransform (.missingAttribute verb .value) operand.position)

/-- The path and value that an operand object states; nothing if it is plain data. -/
def Target.ofOperand? (verb : Verb) (operand : Tree) : Except Fault (Option Target) :=
  (Attributes.ofOperand [.path, .value] operand).bind fun attributes =>
    Target.ofAttributes? verb attributes operand

/-- The nodes that a path finds from a node on. A path that is no query lies in the transform. -/
def Document.matches? (d : Document) (node : NodeId) (path : String) : Except Fault (List NodeId) :=
  match d.query node path with
  | .ok found => .ok found
  | .error malformed => .error (.inTransform (.pathSyntax path malformed.detail) none)

def Run.find (node : NodeId) (path : String) (position : Option Position) : Run (List NodeId) := do
  match (← Run.document).matches? node path with
  | .ok found => return found
  | .error f => throw (f.orAt position)

end Reshape
