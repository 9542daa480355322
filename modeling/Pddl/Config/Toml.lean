import Pddl.Config.Basic
import Pddl.Toml.Document

namespace Pddl

namespace Layout

def isEmptyValue : Toml.Value → Bool
  | .array items => items.isEmpty
  | .table _ entries => entries.isEmpty
  | _ => false

/-- A layout is named by a string, or by the only key of a table, with nothing below it. -/
def ofValue? : Toml.Value → Option Layout
  | .string s => ofText? s
  | .table _ [(name, v)] => if isEmptyValue v then ofText? name else none
  | _ => none

end Layout

namespace Config

/-- The value of an option: the default if it is missing, and nothing if it does not fit. -/
def option {α : Type} (entries : Toml.Entries) (name : String) (fallback : α)
    (ofValue : Toml.Value → Option α) : Option α :=
  match entries.lookup name with
  | none => some fallback
  | some v => ofValue v

def boolean? : Toml.Value → Option Bool
  | .boolean b => some b
  | _ => none

def ofEntries? (entries : Toml.Entries) : Option Config := do
  let operatorsAsActions ← option entries "operators-as-actions" false boolean?
  let expectActionPredicates ← option entries "expect-action-predicates" false boolean?
  let layout ← option entries "problem-layout" .fastDownward Layout.ofValue?
  return { operatorsAsActions, expectActionPredicates, layout }

def ofToml (text : String) : Except Error Config :=
  match Toml.read? text >>= ofEntries? with
  | some c => .ok c
  | none => .error .unreadableConfig

def read (text : String) : Except Error Config := do
  let c ← ofToml text
  c.validate
  return c

def boolText (b : Bool) : String := if b then "true" else "false"

def toToml (c : Config) : String :=
  "operators-as-actions = " ++ boolText c.operatorsAsActions ++ "\n" ++
    "expect-action-predicates = " ++ boolText c.expectActionPredicates ++ "\n" ++
    "problem-layout = \"" ++ c.layout.text ++ "\"\n"

end Config

end Pddl
