import Pddl.Domain.Reader
import Pddl.Problem.Basic

namespace Pddl

/-- The sections of a problem; of a repeated section the last counts. -/
structure ProblemSections where
  name : Option String
  domainName : Option String
  objects : List Entity
  init : List Tree
  goal : Option Tree

namespace ProblemSections

def empty : ProblemSections := ⟨none, none, [], [], none⟩

def singleName (entry : Tree) : List Tree → Except Error String
  | [name] => do
    let word ← name.expectWord "a name"
    return word.text
  | _ => .error (entry.fault (.expected "a single name"))

/-- Stores the body of a section; a section that is not known is skipped with a warning. -/
def set (s : ProblemSections) (types : Types) (entry keyword : Tree) (body : List Tree) :
    Report ProblemSections :=
  let skip : Report ProblemSections := do
    Report.warn (.skippedProblemSection keyword.here.text entry.here.start.line)
    return s
  match keyword with
  | .list _ _ => skip
  | .broken _ _ => skip
  | .word word =>
    match word.text with
    | "problem" => do
      let name ← singleName entry body
      return { s with name }
    | ":domain" => do
      let name ← singleName entry body
      return { s with domainName := name }
    | ":objects" => do
      let objects ← types.entities .adHoc body
      return { s with objects }
    | ":init" => return { s with init := body }
    | ":goal" =>
      match body with
      | [goal] => do
        let goal ← goal.expectList "a goal formula"
        return { s with goal }
      | _ => .ofExcept (.error (entry.fault (.expected "`(:goal <formula>)`")))
    | _ => skip

def setAll (s : ProblemSections) (types : Types) : List Tree → Report ProblemSections
  | [] => pure s
  | t :: ts => do
    let items ← t.expectItems "a problem section"
    match items with
    | [] => .ofExcept (.error (t.fault (.empty "problem section")))
    | keyword :: body => do
      let s ← s.set types t keyword body
      s.setAll types ts

end ProblemSections

namespace Domain

def headsAction (d : Domain) : List Tree → Bool
  | .word e :: _ => d.isActionPredicate e.text
  | _ => false

/-- The fluent `(= <term> <number>)`, unless its term is headed by an action predicate. -/
def readFluent (d : Domain) (scope : Scope) (entry : Tree) (args : List Tree) :
    Except Error (Option Fact) :=
  match args with
  | [term, value] => do
    let inside ← term.expectItems "a function term"
    if d.headsAction inside then return none
    else do
      let term ← d.readTerm scope term
      let word ← value.expectWord "a number"
      let value ← readNumber word
      return some (.fluent term value)
  | _ => .error (entry.fault (.expected "`(= (<function> ...) <number>)`"))

/-- One fact, unless it is about an action predicate. -/
def readFact (d : Domain) (scope : Scope) (entry : Tree) : Except Error (Option Fact) := do
  let items ← entry.expectItems "an initial fact"
  match items with
  | [] => .error (entry.fault (.empty "initial fact"))
  | head :: args => do
    let head ← head.expectWord "a predicate name"
    if head.text = "=" then d.readFluent scope entry args
    else if d.isActionPredicate head.text then return none
    else do
      let atom ← d.readAtom scope head args
      return some (.atom atom)

def readFacts (d : Domain) (scope : Scope) : List Tree → Except Error (List Fact)
  | [] => .ok []
  | t :: ts => do
    let fact ← d.readFact scope t
    let facts ← d.readFacts scope ts
    return fact.toList ++ facts

end Domain

def Problem.read (d : Domain) (text : String) : Report Problem := do
  let (definition, trees) ← readDefinition (.ofString (Text.prepare text))
  let sections ← ProblemSections.empty.setAll d.types trees
  match sections.name, sections.domainName with
  | none, _ => .ofExcept (.error (definition.fault (.missing "`(problem <name>)`")))
  | some _, none => .ofExcept (.error (definition.fault (.missing "`(:domain <name>)`")))
  | some name, some domainName =>
    if domainName ≠ d.name then .ofExcept (.error (.otherDomain d.name domainName))
    else do
      let objects := Sorted.ofList sections.objects
      let scope := Scope.ofEntities (d.constants ++ objects)
      let facts ← d.readFacts scope sections.init
      let goal ← d.readOptional scope .condition sections.goal
      return ⟨name, domainName, objects, Sorted.ofList facts, goal⟩

end Pddl
