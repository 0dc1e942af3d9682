/-
  Reshape.Json.Print — values as text.

  A value is written either compactly, without any space, or on lines of its own: each
  item and member on a line, two spaces further in than its container, and a space behind
  each colon. Empty containers are `[]` and `{}` in both layouts.
  - In strings only the quote, the backslash and the controls below U+0020 are escaped,
    the latter by their short form if they have one and by four hexadecimal digits if not.
  - `Value.chars` says what is written, `charsBefore` writes it in one pass (`charsBefore_eq`).
-/

import Reshape.Json.Value

namespace Reshape

inductive Layout where
  | compact
  | indented
  deriving DecidableEq, Repr

namespace Layout

/-- What stands before an item, member or closing bracket that is `depth` containers in. -/
def newline (layout : Layout) (depth : Nat) : List Char :=
  match layout with
  | .compact => []
  | .indented => '\n' :: List.replicate (2 * depth) ' '

def colon : Layout → List Char
  | .compact => [':']
  | .indented => [':', ' ']

end Layout

def escapedChar (c : Char) : List Char :=
  if c = '"' then ['\\', '"']
  else if c = '\\' then ['\\', '\\']
  else if c = '\x08' then ['\\', 'b']
  else if c = '\x0c' then ['\\', 'f']
  else if c = '\n' then ['\\', 'n']
  else if c = '\r' then ['\\', 'r']
  else if c = '\t' then ['\\', 't']
  else if c.toNat < 0x20 then ['\\', 'u', '0', '0', Nat.digitChar (c.toNat / 16), Nat.digitChar (c.toNat % 16)]
  else [c]

def quotedChars (s : String) : List Char := '"' :: (s.toList.flatMap escapedChar ++ ['"'])

def Scalar.chars : Scalar → List Char
  | .null => "null".toList
  | .bool true => "true".toList
  | .bool false => "false".toList
  | .number n => n.chars
  | .string s => quotedChars s

namespace Value

mutual

/-- A value that stands `depth` containers in, as text. -/
def chars (layout : Layout) (depth : Nat) : Value → List Char
  | .scalar s => s.chars
  | .array [] => ['[', ']']
  | .array (v :: rest) =>
    '[' :: layout.newline (depth + 1) ++ v.chars layout (depth + 1) ++ moreItems layout (depth + 1) rest ++
      layout.newline depth ++ [']']
  | .object [] => ['\x7b', '\x7d']
  | .object ((key, v) :: rest) =>
    '\x7b' :: layout.newline (depth + 1) ++ quotedChars key ++ layout.colon ++ v.chars layout (depth + 1) ++
      moreMembers layout (depth + 1) rest ++ layout.newline depth ++ ['\x7d']
termination_by structural v => v

def moreItems (layout : Layout) (depth : Nat) : List Value → List Char
  | [] => []
  | v :: rest => ',' :: layout.newline depth ++ v.chars layout depth ++ moreItems layout depth rest
termination_by structural items => items

def moreMembers (layout : Layout) (depth : Nat) : List (String × Value) → List Char
  | [] => []
  | (key, v) :: rest =>
    ',' :: layout.newline depth ++ quotedChars key ++ layout.colon ++ v.chars layout depth ++
      moreMembers layout depth rest
termination_by structural members => members

end

mutual

/-- A value as text, in front of the text that follows it: each character is put in place once. -/
def charsBefore (layout : Layout) (depth : Nat) : Value → List Char → List Char
  | .scalar s, after => s.chars ++ after
  | .array [], after => '[' :: ']' :: after
  | .array (v :: rest), after =>
    '[' :: (layout.newline (depth + 1) ++ v.charsBefore layout (depth + 1)
      (moreItemsBefore layout (depth + 1) rest (layout.newline depth ++ ']' :: after)))
  | .object [], after => '\x7b' :: '\x7d' :: after
  | .object ((key, v) :: rest), after =>
    '\x7b' :: (layout.newline (depth + 1) ++ (quotedChars key ++ (layout.colon ++ v.charsBefore layout (depth + 1)
      (moreMembersBefore layout (depth + 1) rest (layout.newline depth ++ '\x7d' :: after)))))
termination_by structural v => v

def moreItemsBefore (layout : Layout) (depth : Nat) : List Value → List Char → List Char
  | [], after => after
  | v :: rest, after =>
    ',' :: (layout.newline depth ++ v.charsBefore layout depth (moreItemsBefore layout depth rest after))
termination_by structural items => items

def moreMembersBefore (layout : Layout) (depth : Nat) : List (String × Value) → List Char → List Char
  | [], after => after
  | (key, v) :: rest, after =>
    ',' :: (layout.newline depth ++ (quotedChars key ++ (layout.colon ++ v.charsBefore layout depth
      (moreMembersBefore layout depth rest after))))
termination_by structural members => members

end

mutual

theorem charsBefore_eq (layout : Layout) (depth : Nat) (v : Value) (after : List Char) :
    v.charsBefore layout depth after = v.chars layout depth ++ after := by
  match v with
  | .scalar s => simp [charsBefore, chars]
  | .array [] => simp [charsBefore, chars]
  | .array (v :: rest) =>
    simp [charsBefore, chars, charsBefore_eq layout (depth + 1) v, moreItemsBefore_eq layout (depth + 1) rest]
  | .object [] => simp [charsBefore, chars]
  | .object ((key, v) :: rest) =>
    simp [charsBefore, chars, charsBefore_eq layout (depth + 1) v, moreMembersBefore_eq layout (depth + 1) rest]

theorem moreItemsBefore_eq (layout : Layout) (depth : Nat) (items : List Value) (after : List Char) :
    moreItemsBefore layout depth items after = moreItems layout depth items ++ after := by
  match items with
  | [] => simp [moreItemsBefore, moreItems]
  | v :: rest =>
    simp [moreItemsBefore, moreItems, charsBefore_eq layout depth v, moreItemsBefore_eq layout depth rest]

theorem moreMembersBefore_eq (layout : Layout) (depth : Nat) (members : List (String × Value))
    (after : List Char) :
    moreMembersBefore layout depth members after = moreMembers layout depth members ++ after := by
  match members with
  | [] => simp [moreMembersBefore, moreMembers]
  | (key, v) :: rest =>
    simp [moreMembersBefore, moreMembers, charsBefore_eq layout depth v, moreMembersBefore_eq layout depth rest]

end

def text (layout : Layout) (v : Value) : String := String.ofList (v.charsBefore layout 0 [])

theorem text_eq (layout : Layout) (v : Value) : v.text layout = String.ofList (v.chars layout 0) := by
  rw [text, charsBefore_eq, List.append_nil]

end Value

end Reshape
