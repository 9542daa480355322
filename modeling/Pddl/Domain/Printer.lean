import Pddl.Domain.Basic

namespace Pddl

namespace Signature

/-- Parameters `?v0`, `?v1`, … of the given types. -/
def numberedParameters (first : Nat) : List String → List Entity
  | [] => []
  | type :: types => ⟨"?v" ++ toString first, type⟩ :: numberedParameters (first + 1) types

def text (s : Signature) : String :=
  match numberedParameters 0 s.parameters with
  | [] => "(" ++ s.name ++ ")"
  | parameters => "(" ++ s.name ++ " " ++ Entity.texts parameters ++ ")"

def lines (signatures : List Signature) : String :=
  Text.concat (signatures.map fun s => "\t\t" ++ s.text ++ "\n")

end Signature

namespace Types

def text (t : Types) : String :=
  if !t.usesTyping then ""
  else if t.hierarchy.isEmpty then "\t(:types " ++ Text.words t.declared ++ ")\n"
  else
    "\t(:types\n" ++
      Text.concat (t.hierarchy.map fun (supertype, subtypes) =>
        "\t\t" ++ Text.words subtypes ++ " - " ++ supertype ++ "\n") ++
      "\t)\n"

end Types

namespace Domain

/-- The predicates that are written. Those that come from operators are left out where reading creates
them again. -/
def writtenPredicates (d : Domain) : List Signature :=
  d.predicates.filter fun p => !(d.operatorsAsActions && d.isActionPredicate p.name)

def requirementsText (d : Domain) : String :=
  if d.requirements.isEmpty then "" else "\t(:requirements " ++ Text.words d.requirements ++ ")\n"

def constantsText (d : Domain) : String :=
  if d.constants.isEmpty then "" else "\t(:constants " ++ Entity.texts d.constants ++ ")\n"

def predicatesText (d : Domain) : String :=
  "\t(:predicates\n" ++ Signature.lines d.writtenPredicates ++ "\t)\n"

def functionsText (d : Domain) : String :=
  if d.functions.isEmpty then ""
  else "\t(:functions\n" ++ Signature.lines d.functions ++ "\t)\n"

def actionsText (d : Domain) : String :=
  if d.operatorsAsActions || d.actionPredicates.isEmpty then ""
  else "\t(:actions " ++ Text.words d.actionPredicates ++ ")\n"

def operatorsText (d : Domain) : String :=
  Text.concat (d.operators.map fun o => "\n" ++ o.text ++ "\n")

def text (d : Domain) : String :=
  "(define (domain " ++ d.name ++ ")\n" ++ d.requirementsText ++ d.types.text ++ d.constantsText ++
    d.predicatesText ++ d.functionsText ++ d.actionsText ++ d.operatorsText ++ ")"

end Domain

end Pddl
