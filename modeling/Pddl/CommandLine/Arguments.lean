
namespace Pddl

structure OptionForm where
  letter : Option Char
  name : String
  takesValue : Bool

inductive Argument where
  | option (name : String) (value : Option String)
  | operand (text : String)
  deriving DecidableEq, Repr

namespace Argument

def afterEquals (cs : List Char) : List Char :=
  match cs with
  | '=' :: rest => rest
  | cs => cs

/-- The options that letters behind a dash stand for, and the name of the last one if its value is
still to come. -/
def ofLetters? (forms : List OptionForm) : List Char → Option (List Argument × Option String)
  | [] => some ([], none)
  | c :: cs => do
    let form ← forms.find? (·.letter = some c)
    if form.takesValue then
      if cs.isEmpty then return ([], some form.name)
      else return ([.option form.name (some (String.ofList (afterEquals cs)))], none)
    else do
      let (others, pending) ← ofLetters? forms cs
      return (.option form.name none :: others, pending)

def ofName? (forms : List OptionForm) (cs : List Char) : Option (List Argument × Option String) := do
  let name := String.ofList (cs.takeWhile (· ≠ '='))
  let form ← forms.find? (·.name = name)
  match cs.dropWhile (· ≠ '=') with
  | [] => if form.takesValue then return ([], some name) else return ([.option name none], none)
  | _ :: value =>
    if form.takesValue then return ([.option name (some (String.ofList value))], none) else none

def ofWord? (forms : List OptionForm) (word : String) : Option (List Argument × Option String) :=
  match word.toList with
  | '-' :: '-' :: cs => ofName? forms cs
  | '-' :: c :: cs => ofLetters? forms (c :: cs)
  | _ => some ([.operand word], none)

def isValue (word : String) : Bool := word = "-" || word.toList.head? ≠ some '-'

/-- Reads words up to the first that `stops`, which is left with those behind it. Two dashes end the
options and the search for such a word. -/
def read? (forms : List OptionForm) (stops : String → Bool) :
    List String → Option (List Argument × List String)
  | [] => some ([], [])
  | [word] =>
    if word = "--" then some ([], [])
    else if stops word then some ([], [word])
    else do
      let (arguments, pending) ← ofWord? forms word
      if pending.isSome then none else return (arguments, [])
  | word :: next :: rest =>
    if word = "--" then some ((next :: rest).map .operand, [])
    else if stops word then some ([], word :: next :: rest)
    else do
      let (arguments, pending) ← ofWord? forms word
      match pending with
      | none => do
        let (others, rest) ← read? forms stops (next :: rest)
        return (arguments ++ others, rest)
      | some name =>
        if isValue next then do
          let (others, rest) ← read? forms stops rest
          return (arguments ++ .option name (some next) :: others, rest)
        else none

def operands (arguments : List Argument) : List String :=
  arguments.filterMap fun
    | .operand text => some text
    | .option _ _ => none

def occurrences (name : String) (arguments : List Argument) : List (Option String) :=
  arguments.filterMap fun
    | .operand _ => none
    | .option n value => if n = name then some value else none

/-- The value of an option that may be given once. -/
def value? (name : String) (arguments : List Argument) : Option (Option String) :=
  match occurrences name arguments with
  | [] => some none
  | [value] => some value
  | _ => none

/-- Whether an option without a value is given, which it may be once. -/
def flag? (name : String) (arguments : List Argument) : Option Bool :=
  match occurrences name arguments with
  | [] => some false
  | [_] => some true
  | _ => none

def areFilled (arguments : List Argument) : Bool :=
  arguments.all fun
    | .operand text => text ≠ ""
    | .option _ value => value ≠ some ""

end Argument

inductive Command where
  | check (problem : Option String)
  | render (problem : Option String) (determinize : Bool)
      (domainOutput problemOutput : Option String)
  | ground (problem plan : String) (instantiate : Bool)
  deriving DecidableEq, Repr

structure Invocation where
  domain : String
  config : Option String
  command : Command
  deriving DecidableEq, Repr

namespace Invocation

open Argument

def generalOptions : List OptionForm :=
  [⟨some 'C', "config", true⟩, ⟨some 'v', "verbosity", true⟩, ⟨some 'c', "colour", false⟩]

def renderOptions : List OptionForm :=
  [⟨some 'd', "determinize", false⟩, ⟨none, "domain-output", true⟩,
    ⟨none, "problem-output", true⟩]

def groundOptions : List OptionForm := [⟨some 'i', "instantiate", false⟩]

def verbosities : List String := ["silent", "normal", "verbose", "debug"]

def isCommand (word : String) : Bool := ["check", "render", "ground"].contains word

def argumentsOf? (forms : List OptionForm) (words : List String) : Option (List Argument) := do
  let (arguments, _) ← read? forms (fun _ => false) words
  if areFilled arguments then return arguments else none

def command? (name : String) (words : List String) : Option Command :=
  match name with
  | "check" => do
    let arguments ← argumentsOf? [] words
    match operands arguments with
    | [] => return .check none
    | [problem] => return .check (some problem)
    | _ => none
  | "render" => do
    let arguments ← argumentsOf? renderOptions words
    let determinize ← flag? "determinize" arguments
    let domainOutput ← value? "domain-output" arguments
    let problemOutput ← value? "problem-output" arguments
    match operands arguments with
    | [] => return .render none determinize domainOutput problemOutput
    | [problem] => return .render (some problem) determinize domainOutput problemOutput
    | _ => none
  | "ground" => do
    let arguments ← argumentsOf? groundOptions words
    let instantiate ← flag? "instantiate" arguments
    match operands arguments with
    | [problem, plan] => return .ground problem plan instantiate
    | _ => none
  | _ => none

def ofWords? (words : List String) : Option Invocation := do
  let (arguments, rest) ← read? generalOptions isCommand words
  let config ← value? "config" arguments
  let verbosity ← value? "verbosity" arguments
  let _ ← flag? "colour" arguments
  match operands arguments, rest with
  | [domain], name :: words => do
    let command ← command? name words
    if areFilled arguments && (verbosities.contains (verbosity.getD "normal")) then
      return ⟨domain, config, command⟩
    else none
  | _, _ => none

end Invocation

end Pddl
