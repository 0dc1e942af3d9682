/-
  Reshape.Json.Traced — the reader of documents with the marks that it leaves where it fails.

  A reader put together from others fails where one of its parts does. Each reader that gives
  up leaves a mark with the cursor it stood at, the innermost first: a label says what was
  expected in the words of a message, a reader of one character says which, any other only
  that it is there. A soft failure lets the next alternative try, and the marks of the
  earlier ones are dropped; a hard one ends the reading.
  - What comes to light is the first label of the trace, else its first character, else that
    the input is not what was expected, else that it is over (`Trace.report`).
  - `document` reads a whole text this way; it is built as the reader of `Json.Read` is, from
    the same tokens and to the same depth.
-/

import Reshape.Json.Read

namespace Reshape.Traced

/-! ## Marks -/

inductive Mark where
  | label (wanted : Expected)
  | char (wanted : Char)
  /-- A reader of some other kind has given up. -/
  | reader
  deriving DecidableEq, Repr

/-- The marks of a failure, the innermost first. -/
abbrev Trace := List (Cursor × Mark)

/-- What comes to light of a failure. -/
inductive Report where
  | failure (f : Failure)
  | character (wanted : Char) (at_ : Cursor)
  | input (at_ : Cursor)
  | exhausted
  deriving DecidableEq, Repr

namespace Report

def text : Report → String
  | .failure f => f.text
  | .character wanted c => "expected '" ++ String.ofList [wanted] ++ "', " ++ Failure.foundText c
  | .input c => "unexpected input, " ++ Failure.foundText c
  | .exhausted => "Unexpected end of input"

def position? : Report → Option Position
  | .failure f => some f.position
  | .character _ c => some c.place
  | .input c => some c.place
  | .exhausted => none

end Report

namespace Trace

def label? (t : Trace) : Option Failure :=
  t.findSome? fun
    | (c, .label wanted) => some (.unexpected wanted c)
    | _ => none

def report (t : Trace) : Report :=
  match t.label?, t with
  | some f, _ => .failure f
  | none, (c, .char wanted) :: _ => .character wanted c
  | none, (c, _) :: _ => .input c
  | none, [] => .exhausted

end Trace

inductive Answer (α : Type) where
  | found (value : α) (next : Cursor)
  | failed (hard : Bool) (trace : Trace)

variable {α β : Type}

def Answer.andThen (a : Answer α) (next : α → Cursor → Answer β) : Answer β :=
  match a with
  | .found v c => next v c
  | .failed hard t => .failed hard t

def Answer.map (f : α → β) (a : Answer α) : Answer β := a.andThen fun v c => .found (f v) c

abbrev Reader (α : Type) := Cursor → Answer α

/-! ## Readers from readers -/

/-- A reader without parts, which leaves one mark. -/
def leaf (mark : Mark) (r : Cursor → Outcome α) : Reader α := fun c =>
  match r c with
  | .found v next => .found v next
  | _ => .failed false [(c, mark)]

def labelled (wanted : Expected) (r : Reader α) : Reader α := fun c =>
  match r c with
  | .failed hard t => .failed hard (t ++ [(c, .label wanted)])
  | a => a

def committed (r : Reader α) : Reader α := fun c =>
  match r c with
  | .failed _ t => .failed true t
  | a => a

def optional (r : Reader α) : Reader (Option α) := fun c =>
  match r c with
  | .found v next => .found (some v) next
  | .failed false _ => .found none c
  | .failed true t => .failed true t

/-- The first of the readers that does not fail softly. If all do, the marks are those of the last one. -/
def firstOf : List (Reader α) → Reader α
  | [], c => .failed false [(c, .reader)]
  | [r], c =>
    match r c with
    | .failed false t => .failed false (t ++ [(c, .reader)])
    | a => a
  | r :: rest, c =>
    match r c with
    | .failed false _ => firstOf rest c
    | a => a

/-- The reader as often as it finds something. Finding nothing more is its end, finding it without getting on
    a failure. -/
def many (r : Reader α) (c : Cursor) : Answer (List α) :=
  match r c with
  | .failed false _ => .found [] c
  | .failed true t => .failed true t
  | .found v next =>
    if _h : next.rest.length < c.rest.length then (many r next).map (v :: ·) else .failed false [(c, .reader)]
termination_by c.rest.length

/-! ## Tokens -/

def run (p : Char → Bool) : Reader (List Char) :=
  leaf .reader fun c =>
    if (c.rest.takeWhile p).isEmpty then .absent
    else .found (c.rest.takeWhile p) (c.past (c.rest.takeWhile p) (c.rest.dropWhile p))

def tag (word : List Char) : Reader (List Char) :=
  leaf .reader fun c =>
    match afterWord? word c.rest with
    | some rest => .found word (c.past word rest)
    | none => .absent

def sign (wanted : Char) : Reader Unit := leaf (.char wanted) (readChar wanted)

def oneOf (wanted : List Char) : Reader Char :=
  leaf .reader fun c =>
    match c.rest with
    | d :: rest => if d ∈ wanted then .found d (c.past [d] rest) else .absent
    | [] => .absent

/-! ## Gaps -/

/-- A text cut in front of the first sign that closes a comment. -/
def beforeClose? : List Char → Option (List Char × List Char)
  | [] => none
  | c :: rest =>
    if c = '*' ∧ rest.head? = some '/' then some ([], c :: rest)
    else (beforeClose? rest).map fun (body, rest) => (c :: body, rest)

def inside : Reader (List Char) :=
  leaf .reader fun c =>
    match beforeClose? c.rest with
    | some (body, rest) => .found body (c.past body rest)
    | none => .absent

def isLineBreak (c : Char) : Bool := c == '\r' || c == '\n'

def spaces : Reader Unit := fun c => (run isSeparator c).map fun _ => ()

def lineComment : Reader Unit := fun c =>
  (tag ['/', '/'] c).andThen fun _ c => (optional (run (!isLineBreak ·)) c).map fun _ => ()

def blockComment : Reader Unit := fun c =>
  (tag ['/', '*'] c).andThen fun _ =>
    committed (labelled .commentEnd fun c => (inside c).andThen fun _ c => (tag ['*', '/'] c).map fun _ => ())

def gap : Reader Unit := fun c => (many (firstOf [spaces, lineComment, blockComment]) c).map fun _ => ()

def behindGap (r : Reader α) : Reader α := fun c => (gap c).andThen fun _ => r

/-! ## Strings -/

def quad : Reader Nat := leaf .reader readQuad

def refuse (wanted : Expected) (c : Cursor) : Answer α := .failed true [(c, .label wanted)]

/-- The character of an escape by number, its `u` already read. -/
def unit : Reader Char := fun c =>
  (quad c).andThen fun unit next =>
    if isHighSurrogate unit then
      ((tag ['\\', 'u'] next).andThen fun _ => quad).andThen fun low last =>
        if isLowSurrogate low then
          match scalar? (joinSurrogates unit low) with
          | some char => .found char last
          | none => refuse .unicodeEscape c
        else refuse .surrogatePair c
    else
      match scalar? unit with
      | some char => .found char next
      | none => refuse .unicodeEscape c

def letterTable : List (Char × Char) :=
  [('"', '"'), ('\'', '\''), ('\\', '\\'), ('/', '/'), ('n', '\n'), ('r', '\r'), ('t', '\t'), ('b', '\x08'),
   ('f', '\x0c')]

def letter (l : Char × Char) : Reader Char := fun c => (sign l.1 c).map fun _ => l.2

def escape : Reader Char :=
  labelled .escape (firstOf ((fun c => (sign 'u' c).andThen fun _ => unit) :: letterTable.map letter))

def isRaw (quote d : Char) : Bool := d != quote && d != '\\'

def escaped : Reader (List Char) := fun c =>
  ((sign '\\' c).andThen fun _ => committed escape).map fun char => [char]

def fragment (quote : Char) : Reader (List Char) := firstOf [run (isRaw quote), escaped]

def body (quote : Char) : Reader (List Char) := fun c =>
  (many (fragment quote) c).andThen fun parts c =>
    (labelled .stringEnd (committed (sign quote)) c).map fun _ => parts.flatten

def quoted (quote : Char) : Reader (List Char) := fun c => (sign quote c).andThen fun _ => body quote

def string : Reader String := fun c => (firstOf [quoted '"', quoted '\''] c).map String.ofList

/-! ## Numbers and words -/

def fraction : Reader (List Char) := fun c => (sign '.' c).andThen fun _ => committed (run isDigit)

def power (mark : Char) : Reader Exponent := fun c =>
  (optional (oneOf ['+', '-']) c).andThen fun sign c => (run isDigit c).map fun digits => ⟨mark, sign, digits⟩

def exponent : Reader Exponent := fun c => (oneOf ['e', 'E'] c).andThen fun mark => committed (power mark)

def number : Reader Scalar := fun c =>
  (optional (sign '-') c).andThen fun minus c₁ =>
    (firstOf [tag ['0'], run isDigit] c₁).andThen fun whole c₂ =>
      (optional fraction c₂).andThen fun fraction c₃ =>
        (optional exponent c₃).andThen fun exponent next =>
          match Literal.number? ⟨minus.isSome, whole, fraction.getD [], exponent⟩ with
          | some n => .found (.number n) next
          | none => .failed false [(c, .reader)]

def keyword : Reader Scalar :=
  firstOf [fun c => (tag "true".toList c).map fun _ => .bool true,
    fun c => (tag "false".toList c).map fun _ => .bool false, fun c => (tag "null".toList c).map fun _ => .null]

/-! ## Lists -/

/-- The elements from a cursor on. If there is none, the list ends where it would have gone on from. -/
def listed (element : Reader α) (more : Reader (List α)) (back : Cursor) : Reader (List α) := fun c =>
  match element c with
  | .failed false _ => .found [] back
  | .failed true t => .failed true t
  | .found v next => (more next).map (v :: ·)

def listedOn (element : Reader α) (more : Reader (List α)) : Reader (List α) := fun c =>
  match behindGap (sign ',') c with
  | .failed false _ => .found [] c
  | .failed true t => .failed true t
  | .found _ next =>
    if next.rest.length < c.rest.length then listed element more c next else .failed false [(next, .reader)]

def lastComma (nonempty : Bool) : Reader Unit := fun c =>
  if nonempty then (optional (sign ',') c).map fun _ => () else .found () c

def ending (nonempty : Bool) (close : Char) (wanted : Expected) : Reader Unit := fun c =>
  (gap c).andThen fun _ c =>
    (lastComma nonempty c).andThen fun _ c => (gap c).andThen fun _ => labelled wanted (sign close)

def object (members : Reader (List (Member Tree))) : Reader (Content Tree) := fun c =>
  (sign '\x7b' c).andThen fun _ =>
    committed fun c =>
      (members c).andThen fun ms c => (ending (!ms.isEmpty) '\x7d' .memberEnd c).map fun _ => .object ms

def array (items : Reader (List Tree)) : Reader (Content Tree) := fun c =>
  (sign '[' c).andThen fun _ =>
    committed fun c => (items c).andThen fun ts c => (ending (!ts.isEmpty) ']' .itemEnd c).map fun _ => .array ts

/-- A member, whose key decides that it is one. -/
def memberOf (node : Reader Tree) : Reader (Member Tree) := fun c =>
  (gap c).andThen fun _ start =>
    (string start).andThen fun key =>
      committed fun c =>
        (gap c).andThen fun _ c =>
          (labelled .colon (sign ':') c).andThen fun _ c =>
            (gap c).andThen fun _ c => (node c).map fun value => ⟨key, start.place, value⟩

/-! ## Documents -/

mutual

def node : Nat → Reader Tree
  | 0 => labelled .value (firstOf [])
  | depth + 1 => fun c =>
    (labelled .value
      (firstOf [object (members depth), array (items depth), fun c => (string c).map fun s => .scalar (.string s),
        fun c => (number c).map .scalar, fun c => (keyword c).map .scalar]) c).map
      fun content => ⟨c.place, content⟩

def items : Nat → Reader (List Tree)
  | 0 => fun c => .found [] c
  | depth + 1 => fun c => listed (behindGap (node depth)) (moreItems depth) c c

def moreItems : Nat → Reader (List Tree)
  | 0 => fun c => .found [] c
  | depth + 1 => listedOn (behindGap (node depth)) (moreItems depth)

def member : Nat → Reader (Member Tree)
  | 0 => firstOf []
  | depth + 1 => memberOf (node depth)

def members : Nat → Reader (List (Member Tree))
  | 0 => fun c => .found [] c
  | depth + 1 => fun c => listed (member depth) (moreMembers depth) c c

def moreMembers : Nat → Reader (List (Member Tree))
  | 0 => fun c => .found [] c
  | depth + 1 => listedOn (member depth) (moreMembers depth)

end

def document (text : List Char) : Except Report Tree :=
  match behindGap (node (readDepth text)) (.start text) with
  | .failed _ t => .error t.report
  | .found tree c =>
    match gap c with
    | .failed _ t => .error t.report
    | .found _ last => if last.rest.isEmpty then .ok tree else .error (.failure (.trailing last))

end Reshape.Traced
