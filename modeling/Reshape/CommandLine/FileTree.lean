/-
  Reshape.CommandLine.FileTree — a file system that is a value.

  The tree lists its entries by the names that lead to them from the working directory.
  Paths are walked name by name: what is walked through must be a directory, a point and
  an empty name stay where they are, and two points go up. A `World` is a scene with such a
  tree for its files.
-/

import Reshape.CommandLine.Files

namespace Reshape

inductive FileEntry where
  | directory
  | file (bytes : ByteArray)

abbrev Names := List String

/-- A file system below a working directory, which needs no entry. -/
structure FileTree where
  entries : List (Names × FileEntry)

namespace FileTree

def entry? (t : FileTree) (names : Names) : Option FileEntry :=
  if names.isEmpty then some .directory else (t.entries.find? (·.1 == names)).map (·.2)

def put (t : FileTree) (names : Names) (e : FileEntry) : FileTree :=
  if t.entries.any (·.1 == names) then ⟨t.entries.map fun old => if old.1 = names then (names, e) else old⟩
  else ⟨t.entries ++ [(names, e)]⟩

/-- The names that a path leads to from the entry `here`; its last name need not be there. -/
def walk (t : FileTree) (here : Names) : List String → Except FileError Names
  | [] => .ok here
  | name :: rest =>
    match t.entry? here with
    | none => .error .notFound
    | some (.file _) => .error .notDirectory
    | some .directory =>
      if name = "" ∨ name = "." then t.walk here rest
      else if name = ".." then t.walk here.dropLast rest
      else t.walk (here ++ [name]) rest

/-- The names that a path leads to from the working directory; the empty path leads nowhere. -/
def resolve (t : FileTree) (path : String) : Except FileError Names :=
  if path.isEmpty then .error .notFound else t.walk [] ((pieces path.toList).map String.ofList)

def find (t : FileTree) (path : String) : Except FileError FileEntry :=
  (t.resolve path).bind fun names =>
    match t.entry? names with
    | some e => .ok e
    | none => .error .notFound

def read (t : FileTree) (path : String) : Except FileError ByteArray :=
  (t.find path).bind fun
    | .file bytes => .ok bytes
    | .directory => .error .isDirectory

/-- Where a path leads up to its last name: the directory, that name, and whether a slash follows it. The last
    name of the empty path is empty, and nothing is there. -/
def resolveLast (t : FileTree) (path : String) : Except FileError (Names × String × Bool) :=
  let names := ((pieces path.toList).map String.ofList).reverse
  match names.dropWhile String.isEmpty with
  | [] => if path.isEmpty then .error .notFound else .ok ([], ".", true)
  | last :: above => (t.walk [] (above.reverse ++ ["."])).map fun here => (here, last, names.head? == some "")

/-- Whether a name leads to a directory that was there before. -/
def isPlace (name : String) : Bool := name == "." || name == ".."

/-- Makes or overwrites the file at a path. Neither a slash nor a point can end the path of a file. -/
def write (t : FileTree) (path text : String) : Except FileError FileTree :=
  (t.resolveLast path).bind fun (here, last, slash) =>
    if slash || isPlace last then .error .isDirectory
    else match t.entry? (here ++ [last]) with
      | some .directory => .error .isDirectory
      | _ => .ok (t.put (here ++ [last]) (.file text.toUTF8))

def makeDirectory (t : FileTree) (path : String) : Except FileError FileTree :=
  (t.resolveLast path).bind fun (here, last, _) =>
    if isPlace last || (t.entry? (here ++ [last])).isSome then .error .alreadyExists
    else .ok (t.put (here ++ [last]) .directory)

def isDirectory (t : FileTree) (path : String) : Bool :=
  match t.find path with
  | .ok .directory => true
  | _ => false

/-- A change that leaves the tree as it is if it fails. -/
def change (t : FileTree) (changed : Except FileError FileTree) : Except FileError Unit × FileTree :=
  match changed with
  | .ok after => (.ok (), after)
  | .error e => (.error e, t)

end FileTree

instance : FileSystem FileTree where
  isThere t path := (t.find path).isOk
  isDirectory t path := t.isDirectory path
  readBytes t path := t.read path
  makeDirectory t path := t.change (t.makeDirectory path)
  writeText t path text := t.change (t.write path text)

abbrev World := Scene FileTree

end Reshape
