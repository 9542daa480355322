import Pddl.Operator.Basic
import Pddl.Symbols

namespace Pddl

structure Domain extends Symbols where
  name : String
  requirements : List String
  operators : List Operator
  /-- The predicates that stand for plan steps, in ascending order. -/
  actionPredicates : List String
  operatorsAsActions : Bool
  isProbabilistic : Bool

namespace Domain

def operator? (d : Domain) (name : String) : Option Operator :=
  d.operators.find? (·.name = name)

def isActionPredicate (d : Domain) (name : String) : Bool := d.actionPredicates.contains name

def withOperators (d : Domain) (operators : List Operator) : Domain :=
  { d with
    operators
    isProbabilistic := operators.any (·.effect.isProbabilistic) }

end Domain

/-- The parts of a domain before the action predicates are settled. -/
structure Draft extends Symbols where
  name : String
  requirements : List String
  operators : List Operator
  /-- The names given for action predicates, if any are given. -/
  actionPredicates : Option (List String)
  operatorsAsActions : Bool

namespace Draft

def empty (name : String) : Draft :=
  { types := .untyped, predicates := [], functions := [], constants := [], name,
    requirements := [], operators := [], actionPredicates := none, operatorsAsActions := false }

def addOperator (d : Draft) (o : Operator) : Draft := { d with operators := d.operators ++ [o] }

/-- The predicates with one for each operator behind them; names must not repeat. -/
def withOperatorSignatures (predicates : List Signature) :
    List Operator → Except Error (List Signature)
  | [] => .ok predicates
  | o :: os =>
    if predicates.any (·.name = o.name) then .error (.collision o.name)
    else withOperatorSignatures (predicates ++ [o.signature]) os

def checkDeclared (predicates : List Signature) : List String → Except Error Unit
  | [] => .ok ()
  | name :: names =>
    if predicates.any (·.name = name) then checkDeclared predicates names
    else .error (.undefined .predicate name)

def settleActions (d : Draft) : Except Error (List Signature × List String) :=
  if d.operatorsAsActions then do
    let predicates ← withOperatorSignatures d.predicates d.operators
    return (predicates, Sorted.ofList (d.operators.map Operator.name))
  else
    match d.actionPredicates with
    | none => .ok (d.predicates, [])
    | some names => do
      checkDeclared d.predicates names
      return (d.predicates, Sorted.ofList names)

/-- The word that the guards of expanded negations use for disequality. -/
def guardName : String := "different"

/-- Whether a guard would be read as an application of a declared predicate. -/
def guardsCollide (predicates : List Signature) (operators : List Operator) : Bool :=
  predicates.any (·.name = guardName) &&
    operators.any fun o => o.precondition.conjuncts.any Formula.negatesAtom

def build (d : Draft) : Except Error Domain := do
  let (predicates, actionPredicates) ← d.settleActions
  if guardsCollide predicates d.operators then .error (.collision guardName)
  else
    return {
      types := d.types
      predicates
      functions := d.functions
      constants := d.constants
      name := d.name
      requirements := d.requirements
      operators := d.operators
      actionPredicates
      operatorsAsActions := d.operatorsAsActions
      isProbabilistic := d.operators.any (·.effect.isProbabilistic) }

end Draft

end Pddl
