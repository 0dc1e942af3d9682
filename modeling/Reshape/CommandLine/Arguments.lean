/-
  Reshape.CommandLine.Arguments — what the command is asked to do.

  The command takes two paths, the source and the transform, and a few switches, which may
  stand before, between and behind them. A switch has a long name behind two dashes or a
  letter behind one; letters can be written together. A switch that takes a value takes it
  from the same argument, behind `=` or behind the letter, or from the next one, which then
  must not look like a switch. Behind `--` all arguments are paths.
  - Each switch can be given once, and what asks for help or for the version is answered as
    soon as it is read.
-/

import Reshape.Journal

namespace Reshape

structure Options where
  source : String
  transform : String
  output : Option String
  compact : Bool
  verbose : Bool
  format : MessageFormat
  deriving DecidableEq, Repr

inductive Request where
  | help
  | version
  | run (options : Options)
  deriving DecidableEq, Repr

inductive Switch where
  | output
  | compact
  | verbose
  | format
  | help
  | version
  deriving DecidableEq, Repr

namespace Switch

def ofName? : String → Option Switch
  | "output" => some .output
  | "compact" => some .compact
  | "verbose" => some .verbose
  | "message-format" => some .format
  | "help" => some .help
  | "version" => some .version
  | _ => none

def ofLetter? : Char → Option Switch
  | 'o' => some .output
  | 'v' => some .verbose
  | 'h' => some .help
  | 'V' => some .version
  | _ => none

def takesValue : Switch → Bool
  | .output => true
  | .format => true
  | _ => false

end Switch

structure Draft where
  paths : List String
  output : Option String
  compact : Bool
  verbose : Bool
  format : Option MessageFormat
  deriving DecidableEq, Repr

namespace Draft

def empty : Draft := ⟨[], none, false, false, none⟩

/-- One more path. A path is not empty, and there are two of them. -/
def addPath (d : Draft) (path : String) : Option Draft :=
  if path.isEmpty || 2 ≤ d.paths.length then none else some { d with paths := d.paths ++ [path] }

def addPaths (d : Draft) : List String → Option Draft
  | [] => some d
  | path :: rest => (d.addPath path).bind fun d => d.addPaths rest

def setValue (d : Draft) (switch : Switch) (value : String) : Option Draft :=
  match switch with
  | .output => if value.isEmpty || d.output.isSome then none else some { d with output := some value }
  | .format =>
    match d.format, MessageFormat.ofName? value with
    | none, some format => some { d with format := some format }
    | _, _ => none
  | _ => none

def setFlag (d : Draft) (switch : Switch) : Option Draft :=
  match switch with
  | .compact => if d.compact then none else some { d with compact := true }
  | .verbose => if d.verbose then none else some { d with verbose := true }
  | _ => none

def finish (d : Draft) : Option Request :=
  match d.paths with
  | [source, transform] => some (.run ⟨source, transform, d.output, d.compact, d.verbose, d.format.getD .human⟩)
  | _ => none

end Draft

inductive SwitchEffect where
  | next (d : Draft)
  | answer (r : Request)
  | awaits (d : Draft) (switch : Switch)

def Draft.giveFlag (d : Draft) (switch : Switch) : Option SwitchEffect :=
  match switch with
  | .help => some (.answer .help)
  | .version => some (.answer .version)
  | _ => if switch.takesValue then some (.awaits d switch) else (d.setFlag switch).map .next

/-- Letters written together; what stands behind one that takes a value is the value. -/
def Draft.giveLetters (d : Draft) : List Char → Option SwitchEffect
  | [] => some (.next d)
  | letter :: rest =>
    match Switch.ofLetter? letter with
    | none => none
    | some switch =>
      if switch.takesValue && !rest.isEmpty then
        let value := match rest with
          | '=' :: value => value
          | _ => rest
        (d.setValue switch (String.ofList value)).map .next
      else
        match d.giveFlag switch with
        | some (.next d) => d.giveLetters rest
        | effect => effect

/-- A long name, with or without a value behind `=`. -/
def Draft.giveName (d : Draft) (text : List Char) : Option SwitchEffect :=
  match Switch.ofName? (String.ofList (text.takeWhile (· ≠ '='))) with
  | none => none
  | some switch =>
    match text.dropWhile (· ≠ '=') with
    | '=' :: value => if switch.takesValue then (d.setValue switch (String.ofList value)).map .next else none
    | _ => d.giveFlag switch

/-- Whether an argument is written like a switch. A lone dash is not. -/
def looksLikeSwitch (arg : String) : Bool :=
  match arg.toList with
  | '-' :: _ :: _ => true
  | _ => false

def Draft.give (d : Draft) (arg : String) : Option SwitchEffect :=
  match arg.toList with
  | '-' :: '-' :: name => d.giveName name
  | '-' :: letter :: letters => d.giveLetters (letter :: letters)
  | _ => (d.addPath arg).map .next

def Draft.read (d : Draft) : List String → Option Request
  | [] => d.finish
  | arg :: rest =>
    if arg = "--" then (d.addPaths rest).bind Draft.finish
    else
      match d.give arg with
      | none => none
      | some (.answer r) => some r
      | some (.next d) => d.read rest
      | some (.awaits d switch) =>
        match rest with
        | [] => none
        | value :: rest =>
          if looksLikeSwitch value then none else (d.setValue switch value).bind fun d => d.read rest

/-- What the arguments ask for; nothing if they are no proper use of the command. -/
def Request.ofArguments? (args : List String) : Option Request := Draft.empty.read args

def versionText : String := "jdt 0.1.0"

def usageText : String := "Usage: jdt [OPTIONS] <SOURCE> <TRANSFORM>"

def helpText : String :=
  "\n".intercalate
    ["Apply a JSON Document Transform to a JSON file", "", usageText, "", "Arguments:",
      "  <SOURCE>     JSON file to transform", "  <TRANSFORM>  Transform file written in JDT syntax", "", "Options:",
      "  -o, --output <PATH>            Write the result here instead of stdout",
      "      --compact                  Write the result without indentation",
      "  -v, --verbose                  Print informational messages",
      "      --message-format <FORMAT>  Diagnostic output format [default: human] [possible values: human, json]",
      "  -h, --help                     Print help", "  -V, --version                  Print version"]

end Reshape
