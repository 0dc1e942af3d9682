/-
  Reshape.Json.Failure — what a reader finds, and why it gives up.

  A reader that starts at a cursor either finds something and stands behind it, or finds
  that nothing of its kind begins there (`absent`, from which another reader may go on),
  or is broken: what stands there began in a way that nothing can continue. A failure says
  what was expected where, and so what character was found instead.
-/

import Reshape.Text.Position
import Reshape.Text.Basic

namespace Reshape

inductive Expected where
  | value
  | colon
  | memberEnd
  | itemEnd
  | stringEnd
  | commentEnd
  | escape
  | surrogatePair
  | unicodeEscape
  deriving DecidableEq, Repr

def Expected.text : Expected → String
  | .value => "expected a JSON value"
  | .colon => "expected ':'"
  | .memberEnd => "expected ',' or '\x7d'"
  | .itemEnd => "expected ',' or ']'"
  | .stringEnd => "unterminated string"
  | .commentEnd => "unterminated comment"
  | .escape => "invalid escape sequence"
  | .surrogatePair => "invalid surrogate pair"
  | .unicodeEscape => "invalid unicode escape"

/-- Why a text is no document: something else was expected at a cursor, or text follows the document. -/
inductive Failure where
  | unexpected (wanted : Expected) (at_ : Cursor)
  | trailing (at_ : Cursor)
  deriving DecidableEq, Repr

namespace Failure

def cursor : Failure → Cursor
  | .unexpected _ c => c
  | .trailing c => c

def position (f : Failure) : Position := f.cursor.place

def foundText (c : Cursor) : String :=
  match c.rest with
  | [] => "found end of input"
  | c :: _ => "found '" ++ shown c ++ "'"

def text : Failure → String
  | .unexpected wanted c => wanted.text ++ ", " ++ foundText c
  | .trailing _ => "Additional text found after the end of the document"

end Failure

inductive Outcome (α : Type) where
  | found (value : α) (next : Cursor)
  | absent
  | broken (failure : Failure)

namespace Outcome

variable {α β : Type}

def andThen (o : Outcome α) (next : α → Cursor → Outcome β) : Outcome β :=
  match o with
  | .found v c => next v c
  | .absent => .absent
  | .broken f => .broken f

def map (f : α → β) (o : Outcome α) : Outcome β := o.andThen fun v c => .found (f v) c

/-- Where nothing else can stand, absence is a failure. -/
def required (o : Outcome α) (wanted : Expected) (at_ : Cursor) : Outcome α :=
  match o with
  | .absent => .broken (.unexpected wanted at_)
  | _ => o

theorem andThen_eq_found {o : Outcome α} {next : α → Cursor → Outcome β} {b : β} {c : Cursor}
    (h : o.andThen next = .found b c) : ∃ a between, o = .found a between ∧ next a between = .found b c := by
  cases o with
  | found a between => exact ⟨a, between, rfl, h⟩
  | absent => cases h
  | broken f => cases h

theorem andThen_eq_broken {o : Outcome α} {next : α → Cursor → Outcome β} {f : Failure}
    (h : o.andThen next = .broken f) :
    o = .broken f ∨ ∃ a between, o = .found a between ∧ next a between = .broken f := by
  cases o with
  | found a between => exact .inr ⟨a, between, rfl, h⟩
  | absent => cases h
  | broken f' =>
    cases h
    exact .inl rfl

theorem required_eq_found {o : Outcome α} {wanted : Expected} {at_ : Cursor} {a : α} {c : Cursor}
    (h : o.required wanted at_ = .found a c) : o = .found a c := by
  cases o with
  | found b next => exact h
  | absent => cases h
  | broken f => cases h

end Outcome

end Reshape
