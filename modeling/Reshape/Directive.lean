/-
  Reshape.Directive — the keys that instruct instead of naming data.

  In a transform, a key that begins with `@jdt.` is a directive; what follows the prefix
  is its name. A directive names a verb when it stands in a transform object, and an
  attribute when it stands in a verb's operand. Neither prefix nor name regards the case
  of letters. Every other key is literal: it names data.
  - The bare prefix is a directive, with an empty name.
-/

import Reshape.Text.Caseless

namespace Reshape

def directivePrefix : String := "@jdt."

def directiveCase : CaseRule := .insensitive

def directiveName? (key : String) : Option String := directiveCase.stripPrefix? key directivePrefix

def isDirective (key : String) : Bool := (directiveName? key).isSome

inductive Verb where
  | remove
  | replace
  | rename
  | merge
  deriving DecidableEq, Repr

namespace Verb

/-- The verbs in the order in which they act. -/
def all : List Verb := [.remove, .replace, .rename, .merge]

def name : Verb → String
  | .remove => "remove"
  | .replace => "replace"
  | .rename => "rename"
  | .merge => "merge"

/-- The verb as messages call it. -/
def title : Verb → String
  | .remove => "Remove"
  | .replace => "Replace"
  | .rename => "Rename"
  | .merge => "Merge"

def ofName? (name : String) : Option Verb := all.find? fun v => directiveCase.sameText v.name name

def ofKey? (key : String) : Option Verb := (directiveName? key).bind ofName?

def key (v : Verb) : String := directivePrefix ++ v.name

end Verb

inductive Attribute where
  | path
  | value
  deriving DecidableEq, Repr

namespace Attribute

def all : List Attribute := [.path, .value]

/-- The name behind the prefix, by which messages call the attribute too. -/
def name : Attribute → String
  | .path => "path"
  | .value => "value"

def ofName? (name : String) : Option Attribute := all.find? fun a => directiveCase.sameText a.name name

def ofKey? (key : String) : Option Attribute := (directiveName? key).bind ofName?

def key (a : Attribute) : String := directivePrefix ++ a.name

end Attribute

end Reshape
