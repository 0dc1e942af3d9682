/-
  Reshape.Json.Value — JSON values.

  A value is a scalar, an array of values or an object of named values. Members keep
  their order. Two objects are the same data when they have the same members in any
  order, while `3` and `3.0` are different data (`Value.same`).
-/

import Reshape.Number.Basic

namespace Reshape

inductive Scalar where
  | null
  | bool (b : Bool)
  | number (n : Number)
  | string (s : String)
  deriving DecidableEq, Repr

inductive Value where
  | scalar (s : Scalar)
  | array (items : List Value)
  | object (members : List (String × Value))

/-- The seven types that messages name: integers and other numbers are told apart. -/
inductive JsonType where
  | null
  | boolean
  | integer
  | float
  | string
  | array
  | object
  deriving DecidableEq, Repr

def JsonType.name : JsonType → String
  | .null => "Null"
  | .boolean => "Boolean"
  | .integer => "Integer"
  | .float => "Float"
  | .string => "String"
  | .array => "Array"
  | .object => "Object"

namespace Scalar

def type : Scalar → JsonType
  | .null => .null
  | .bool _ => .boolean
  | .number (.integer _) => .integer
  | .number (.real _) => .float
  | .string _ => .string

def same : Scalar → Scalar → Bool
  | .null, .null => true
  | .bool a, .bool b => a == b
  | .number a, .number b => a.same b
  | .string a, .string b => a == b
  | _, _ => false

end Scalar

namespace Value

def ofNat (n : Nat) : Value := .scalar (.number (.ofNat n))

def ofString (s : String) : Value := .scalar (.string s)

def member? (key : String) : List (String × Value) → Option Value
  | [] => none
  | (k, v) :: rest => if k = key then some v else member? key rest

mutual

/-- Whether two values are the same data: objects regardless of the order of their members. -/
def same : Value → Value → Bool
  | .scalar a, .scalar b => a.same b
  | .array a, .array b => sameItems a b
  | .object a, .object b => a.length == b.length && sameMembers a b
  | _, _ => false
termination_by structural v => v

def sameItems : List Value → List Value → Bool
  | [], [] => true
  | a :: as, b :: bs => a.same b && sameItems as bs
  | _, _ => false
termination_by structural items => items

/-- Whether each of the members has a namesake with the same data. -/
def sameMembers : List (String × Value) → List (String × Value) → Bool
  | [], _ => true
  | (key, a) :: rest, others =>
    (match member? key others with
      | some b => a.same b
      | none => false) && sameMembers rest others
termination_by structural members => members

end

end Value

end Reshape
