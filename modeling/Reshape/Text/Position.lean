/-
  Reshape.Text.Position — where something stands in a text.

  A position is a line and a column, both counted from one; a column counts characters
  since the last line feed. A `Cursor` is the text still to be read together with the
  position of its first character, so that every reader can say where it is.
  - `Position.past` moves over a piece of text one character at a time, hence over a
    concatenation piece by piece (`past_append`).
-/

namespace Reshape

/-- A line and a column, both counted from one. -/
structure Position where
  line : Nat
  column : Nat
  deriving DecidableEq, Repr, Inhabited

namespace Position

def start : Position := ⟨1, 1⟩

/-- The position after one more character: only a line feed begins a new line. -/
def after (p : Position) (c : Char) : Position :=
  if c = '\n' then ⟨p.line + 1, 1⟩ else ⟨p.line, p.column + 1⟩

def past (p : Position) (text : List Char) : Position := text.foldl after p

@[simp] theorem past_nil (p : Position) : p.past [] = p := rfl

@[simp] theorem past_cons (p : Position) (c : Char) (text : List Char) :
    p.past (c :: text) = (p.after c).past text := rfl

theorem past_append (p : Position) (a b : List Char) : p.past (a ++ b) = (p.past a).past b :=
  List.foldl_append

def text (p : Position) : String := p.line.repr ++ ":" ++ p.column.repr

end Position

/-- The text still to be read and the position of its first character. -/
structure Cursor where
  rest : List Char
  place : Position
  deriving DecidableEq, Repr, Inhabited

namespace Cursor

def start (text : List Char) : Cursor := ⟨text, .start⟩

/-- The cursor behind the piece `taken`, with `rest` still to be read. -/
def past (cursor : Cursor) (taken rest : List Char) : Cursor := ⟨rest, cursor.place.past taken⟩

theorem past_past (cursor : Cursor) (a b between rest : List Char) :
    (cursor.past a between).past b rest = cursor.past (a ++ b) rest := by
  rw [past, past, past, Position.past_append]

end Cursor

end Reshape
