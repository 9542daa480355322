import Pddl.Config.Basic
import Pddl.Domain.Basic
import Pddl.Operator.Reader
import Pddl.Text.Prepare

namespace Pddl

def readDefinition (text : Excerpt) : Except Error (Excerpt × List Tree) := do
  let definition ← text.single
  let items ← definition.tree.expectItems "a definition"
  match items with
  | [] => .error (definition.fault (.expected "`(define ...)`"))
  | head :: sections =>
    if head.isWord "define" then return (definition, sections)
    else .error (head.fault (.expected "`define`"))

/-- The bodies of the sections of a domain; of a repeated section the last counts, except that
requirements and operators add up. -/
structure DomainSections where
  name : Option Excerpt
  requirements : List String
  types : Option (List Tree)
  constants : Option (List Tree)
  predicates : Option (List Tree)
  functions : Option (List Tree)
  actions : Option (List Tree)
  operators : List Tree

def readWords (what : String) : List Tree → Except Error (List String)
  | [] => .ok []
  | t :: ts => do
    let word ← t.expectWord what
    let words ← readWords what ts
    return word.text :: words

namespace DomainSections

def empty : DomainSections := ⟨none, [], none, none, none, none, none, []⟩

/-- Stores the body of a section; a section that is not known is skipped with a warning. -/
def set (s : DomainSections) (entry keyword : Tree) (body : List Tree) :
    Report DomainSections :=
  let skip : Report DomainSections := do
    Report.warn (.skippedDomainSection keyword.here.text entry.here.start.line)
    return s
  match keyword with
  | .list _ _ => skip
  | .broken _ _ => skip
  | .word word =>
    match word.text with
    | "domain" =>
      match body with
      | [name] => do
        let name ← name.expectWord "a domain name"
        return { s with name }
      | _ => .ofExcept (.error (entry.fault (.expected "`(domain <name>)`")))
    | ":requirements" => do
      let words ← readWords "a requirement" body
      return { s with requirements := s.requirements ++ words }
    | ":types" => return { s with types := body }
    | ":constants" => return { s with constants := body }
    | ":predicates" => return { s with predicates := body }
    | ":functions" => return { s with functions := body }
    | ":actions" => return { s with actions := body }
    | ":action" => return { s with operators := s.operators ++ [entry] }
    | ":durative-action" => return { s with operators := s.operators ++ [entry] }
    | _ => skip

def setAll (s : DomainSections) : List Tree → Report DomainSections
  | [] => pure s
  | t :: ts => do
    let items ← t.expectItems "a domain section"
    match items with
    | [] => .ofExcept (.error (t.fault (.empty "domain section")))
    | keyword :: body => do
      let s ← s.set t keyword body
      s.setAll ts

end DomainSections

/-- A type that a domain may declare. -/
def declarableType (word : Excerpt) : Except Error String :=
  if word.text = implicitType then .error (.type (.reserved word.text)) else .ok word.text

/-- Declares types one after the other. As soon as one type has a supertype all of them need
one. -/
def Types.declareAll (t : Types) (hierarchical : Bool) : List TypedName → Except Error Types
  | [] => .ok t
  | n :: ns => do
    let name ← declarableType n.name
    match n.type with
    | some type => do
      let supertype ← declarableType type
      (t.addSubtypes [name] supertype).declareAll hierarchical ns
    | none =>
      if hierarchical then .error (.type (.lacksSupertype name))
      else (t.declare name).declareAll hierarchical ns

def readTypes : Option (List Tree) → Except Error Types
  | none => .ok .untyped
  | some body => do
    let names ← typedNames body
    Types.typed.declareAll (names.any (·.type.isSome)) names

def Types.readConstants (t : Types) : Option (List Tree) → Except Error (List Entity)
  | none => .ok []
  | some body => t.declaredEntities body

def Types.readSignature (t : Types) (declaration : Tree) : Except Error Signature := do
  let items ← declaration.expectItems "a signature"
  match items with
  | [] => .error (declaration.fault (.empty "signature"))
  | head :: parameters => do
    let name ← head.expectWord "a name"
    let parameters ← t.declaredEntities parameters
    return ⟨name.text, parameters.map Entity.type⟩

/-- Declarations in a row; `- number` between them says nothing. -/
def Types.readSignatures (t : Types) : List Tree → Except Error (List Signature)
  | [] => .ok []
  | [declaration] =>
    if declaration.isWord "-" then .error (declaration.fault (.expected "`- number`"))
    else do
      let s ← t.readSignature declaration
      return [s]
  | declaration :: next :: rest =>
    if declaration.isWord "-" then
      if next.isWord "number" then t.readSignatures rest
      else .error (declaration.fault (.expected "`- number`"))
    else do
      let s ← t.readSignature declaration
      let others ← t.readSignatures (next :: rest)
      return s :: others

def Symbols.readOperators (symbols : Symbols) : List Tree → Except Error (List Operator)
  | [] => .ok []
  | t :: ts => do
    let o ← symbols.readOperator t
    let os ← symbols.readOperators ts
    return o :: os

def DomainSections.symbols (s : DomainSections) : Except Error Symbols := do
  let types ← readTypes s.types
  let constants ← types.readConstants s.constants
  let predicates ← types.readSignatures (s.predicates.getD [])
  let functions ← types.readSignatures (s.functions.getD [])
  return { types, predicates, functions, constants }

/-- How a domain gives its action predicates: the names if it has a section for them, and whether
operators give them instead. The section wins over the option. -/
def DomainSections.actionNames (s : DomainSections) (config : Config) (definition : Excerpt) :
    Report (Option (List String) × Bool) :=
  match s.actions with
  | some body => do
    if config.operatorsAsActions then Report.warn .actionsDeclared
    let names ← readWords "an action predicate name" body
    return (some names, false)
  | none =>
    if config.expectActionPredicates then
      .ofExcept (.error (definition.fault (.missing "`(:actions ...)` section")))
    else pure (none, config.operatorsAsActions)

def Domain.read (config : Config) (text : String) : Report Domain := do
  config.validate
  let (definition, trees) ← readDefinition (.ofString (Text.prepare text))
  let sections ← DomainSections.empty.setAll trees
  match sections.name with
  | none => .ofExcept (.error (definition.fault (.missing "`(domain <name>)`")))
  | some name => do
    let symbols ← sections.symbols
    let operators ← symbols.readOperators sections.operators
    let (actionPredicates, operatorsAsActions) ← sections.actionNames config definition
    Draft.build {
      toSymbols := symbols
      name := name.text
      requirements := sections.requirements
      operators
      actionPredicates
      operatorsAsActions }

end Pddl
