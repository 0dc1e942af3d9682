/-
  Reshape.Path.Select — what a query finds in a value.

  A find is a value together with its location. A query starts with the whole value and
  hands the finds of each segment to the next, in order; a descending segment applies its
  selectors to a value before it goes on to the value's children.
  - Names find members only, indices and slices items only. A negative index counts from
    the end, except in a singular query inside a test, where it finds nothing.
  - Numbers are compared by the value of the nearest real; nothing is equal to nothing and to
    nothing else; containers are equal when they are the same data. Only two numbers or two
    strings are ever less, and `≥` and `>` between values of one type are the absence of less.
-/

import Reshape.Path.Pattern
import Reshape.Path.Query

namespace Reshape.Path

structure Find where
  location : Location
  value : Value

/-! ## Children and descendants -/

/-- The items with their indices, counted from `start`. -/
def itemSteps (start : Nat) : List Value → List (Step × Value)
  | [] => []
  | v :: rest => (.index start, v) :: itemSteps (start + 1) rest

def children : Value → List (Step × Value)
  | .scalar _ => []
  | .array items => itemSteps 0 items
  | .object members => members.map fun (key, v) => (.key key, v)

mutual

/-- The value at a location and everything below it, each before its children. -/
def descendants (location : Location) : Value → List Find
  | .scalar s => [⟨location, .scalar s⟩]
  | .array items => ⟨location, .array items⟩ :: itemDescendants location 0 items
  | .object members => ⟨location, .object members⟩ :: memberDescendants location members
termination_by structural v => v

def itemDescendants (location : Location) (index : Nat) : List Value → List Find
  | [] => []
  | v :: rest => descendants (location ++ [.index index]) v ++ itemDescendants location (index + 1) rest
termination_by structural items => items

def memberDescendants (location : Location) : List (String × Value) → List Find
  | [] => []
  | (key, v) :: rest => descendants (location ++ [.key key]) v ++ memberDescendants location rest
termination_by structural members => members

end

/-- The index that an integer names among `length` items: a negative one counts from the end. -/
def resolveIndex? (length : Nat) (i : Int) : Option Nat :=
  let i := if i < 0 then length + i else i
  if 0 ≤ i ∧ i < length then some i.toNat else none

/-- The items from `lower` on, `step` apart, that lie before `upper`. -/
def upward (step upper : Int) : Nat → Int → List Int
  | 0, _ => []
  | fuel + 1, i => if i < upper then i :: upward step upper fuel (i + step) else []

/-- The items from `upper` down, `step` apart, that lie behind `lower`. -/
def downward (step lower : Int) : Nat → Int → List Int
  | 0, _ => []
  | fuel + 1, i => if lower < i then i :: downward step lower fuel (i + step) else []

/-- The indices of a slice of `length` items. Ends outside the items are moved to the nearest item's edge;
    a step of zero selects nothing. -/
def sliceIndices (length : Nat) (start stop : Option Int) (step : Int) : List Int :=
  let n : Int := length
  let fromStart (i : Int) : Int := if 0 ≤ i then i else n + i
  if 0 < step then
    let lower := min (max (fromStart (start.getD 0)) 0) n
    let upper := min (max (fromStart (stop.getD n)) 0) n
    upward step upper length lower
  else if step < 0 then
    let upper := min (max (fromStart (start.getD (n - 1))) (-1)) (n - 1)
    let lower := min (max (fromStart (stop.getD (-n - 1))) (-1)) (n - 1)
    downward step lower length upper
  else []

/-! ## Comparing -/

/-- The order in which tests compare: numbers by value, strings by code points. -/
def less : Value → Value → Bool
  | .scalar (.number m), .scalar (.number n) => m.value < n.value
  | .scalar (.string a), .scalar (.string b) => a < b
  | _, _ => false

def equal : Value → Value → Bool
  | .scalar (.number m), .scalar (.number n) => m.value == n.value
  | a, b => a.same b

/-- The kinds of value that can be compared: here integers and other numbers are of one kind. -/
inductive Kind where
  | null
  | bool
  | number
  | string
  | array
  | object
  deriving DecidableEq, Repr

def kind : Value → Kind
  | .scalar .null => .null
  | .scalar (.bool _) => .bool
  | .scalar (.number _) => .number
  | .scalar (.string _) => .string
  | .array _ => .array
  | .object _ => .object

/-- Whether two operands are equal: nothing is equal to nothing only. -/
def equalOperands : Option Value → Option Value → Bool
  | none, none => true
  | some a, some b => equal a b
  | _, _ => false

def ordered (holds : Value → Value → Bool) : Option Value → Option Value → Bool
  | some a, some b => kind a == kind b && holds a b
  | _, _ => false

def compare (how : Comparison) (left right : Option Value) : Bool :=
  match how with
  | .eq => equalOperands left right
  | .ne => !equalOperands left right
  | .lt => ordered less left right
  | .le => ordered (fun a b => less a b || equal a b) left right
  | .gt => ordered (fun a b => !less a b && !equal a b) left right
  | .ge => ordered (fun a b => !less a b) left right

/-- The number of characters, items or members; a value of another kind has no length. -/
def length? : Value → Option Nat
  | .scalar (.string s) => some s.length
  | .array items => some items.length
  | .object members => some members.length
  | _ => none

/-- What is searched for to match this much of a text. The pattern stands between the parentheses as it is
    spelled, so that one with parentheses of its own that close too early or open too late is read with these. -/
def Extent.framed (pattern : List Char) : Extent → List Char
  | .whole => ['^', '('] ++ pattern ++ [')', '$']
  | .part => ['('] ++ pattern ++ [')']

/-- Whether a text matches a pattern; what is no text or no pattern never does. -/
def matchesText (extent : Extent) : Option Value → Option Value → Bool
  | some (.scalar (.string text)), some (.scalar (.string pattern)) =>
    match Pattern.read? (extent.framed pattern.toList) with
    | some p => p.matchesPart text.toList
    | none => false
  | _, _ => false

/-! ## Singular queries -/

def SingularStep.child? (v : Value) : SingularStep → Option Value
  | .name key => v.child? (.key key)
  | .index i => if i < 0 then none else v.child? (.index i.toNat)

def followSteps (v : Value) : List SingularStep → Option Value
  | [] => some v
  | s :: rest => (s.child? v).bind fun w => followSteps w rest

def Origin.value (root here : Value) : Origin → Value
  | .root => root
  | .here => here

def Singular.value? (root here : Value) (q : Singular) : Option Value :=
  followSteps (q.origin.value root here) q.steps

/-! ## Selecting -/

mutual

def Selector.pick (root v : Value) : Selector → List (Step × Value)
  | .name key => ((v.child? (.key key)).map fun w => (Step.key key, w)).toList
  | .wildcard => children v
  | .index i =>
    match v with
    | .array items =>
      match resolveIndex? items.length i with
      | some i => ((v.child? (.index i)).map fun w => (Step.index i, w)).toList
      | none => []
    | _ => []
  | .slice start stop step =>
    match v with
    | .array items =>
      (sliceIndices items.length start stop step).flatMap fun i =>
        ((v.child? (.index i.toNat)).map fun w => (Step.index i.toNat, w)).toList
    | _ => []
  | .filter test => (children v).filter fun (_, w) => test.holds root w
termination_by structural s => s

def pickAll (root v : Value) : List Selector → List (Step × Value)
  | [] => []
  | s :: rest => s.pick root v ++ pickAll root v rest
termination_by structural selectors => selectors

def Segment.apply (root : Value) (finds : List Find) : Segment → List Find
  | .mk descends selectors =>
    finds.flatMap fun find =>
      (if descends then descendants find.location find.value else [find]).flatMap fun find =>
        (pickAll root find.value selectors).map fun (step, v) => ⟨find.location ++ [step], v⟩
termination_by structural s => s

def applyAll (root : Value) (finds : List Find) : List Segment → List Find
  | [] => finds
  | s :: rest => applyAll root (s.apply root finds) rest
termination_by structural segments => segments

def Test.holds (root here : Value) : Test → Bool
  | .or a b => a.holds root here || b.holds root here
  | .and a b => a.holds root here && b.holds root here
  | .not a => !a.holds root here
  | .exists_ origin segments => !(applyAll root [⟨[], origin.value root here⟩] segments).isEmpty
  | .compare how left right => compare how (left.value? root here) (right.value? root here)
  | .matches_ extent text pattern => matchesText extent (text.value? root here) (pattern.value? root here)
termination_by structural t => t

def Operand.value? (root here : Value) : Operand → Option Value
  | .literal s => some (.scalar s)
  | .singular q => q.value? root here
  | .length of => ((of.value? root here).bind length?).map .ofNat
  | .count of => some (.ofNat (of.values root here).length)
  | .only of =>
    match of.values root here with
    | [v] => some v
    | _ => none
termination_by structural o => o

def Nodes.values (root here : Value) : Nodes → List Value
  | .singular q => (q.value? root here).toList
  | .query origin segments => (applyAll root [⟨[], origin.value root here⟩] segments).map Find.value
termination_by structural n => n

end

def Query.select (q : Query) (v : Value) : List Find := applyAll v [⟨[], v⟩] q

def Query.locations (q : Query) (v : Value) : List Location := (q.select v).map Find.location

end Reshape.Path
