import Pddl.Domain.Basic
import Pddl.Formula.Variables
import Pddl.Plan.Basic
import Pddl.Problem.Basic

namespace Pddl

structure Action where
  name : String
  arguments : List Entity
  precondition : Formula
  effect : Formula
  deriving Repr

def Action.text (a : Action) : String :=
  (Application.mk a.name a.arguments).text

namespace Problem

def candidates (p : Problem) (d : Domain) (name : String) : List Entity :=
  Sorted.ofList (p.objectsNamed name ++ d.constants.filter (·.name = name))

def resolve (p : Problem) (d : Domain) (name : String) : Except Error Entity :=
  match p.candidates d name with
  | [e] => .ok e
  | es => .error (.ambiguousObject name es.length)

def resolveAll (p : Problem) (d : Domain) : List String → Except Error (List Entity)
  | [] => .ok []
  | name :: names => do
    let e ← p.resolve d name
    let es ← p.resolveAll d names
    return e :: es

end Problem

/-- The first of the precondition's conjuncts that is an atom over an action predicate. -/
def Domain.actionAtom? (d : Domain) (o : Operator) : Option Application :=
  o.precondition.topLevelAtoms.find? fun a => d.isActionPredicate a.head

namespace PlanStep

/-- The operator of the step and the objects for its parameters. -/
def bind (s : PlanStep) (d : Domain) (p : Problem) : Except Error (Operator × Bindings) :=
  match d.operator? s.name with
  | none => .error (.step (.unknown s.name))
  | some o =>
    if o.arity ≠ s.parameters.length then .error (.arity o.name o.arity s.parameters.length)
    else do
      let objects ← p.resolveAll d s.parameters
      return (o, .ofParameters o.parameters objects)

/-- The action predicate of the step's name, applied to the objects. -/
def applyActionPredicate (s : PlanStep) (d : Domain) (p : Problem) : Except Error Application :=
  match d.predicates.find? fun q => q.name = s.name && d.isActionPredicate q.name with
  | none => .error (.step (.unknown s.name))
  | some predicate => do
    let objects ← p.resolveAll d s.parameters
    predicate.apply d.types objects

/-- The atom that the step stands for. -/
def ground (s : PlanStep) (d : Domain) (p : Problem) : Except Error Application :=
  if d.operatorsAsActions then s.applyActionPredicate d p
  else do
    let (o, bindings) ← s.bind d p
    match d.actionAtom? o with
    | some a => return a.substitute bindings
    | none => .error (.step (.noActionPredicate o.name))

/-- The operator of the step with objects in place of its parameters. -/
def instantiate (s : PlanStep) (d : Domain) (p : Problem) : Except Error Action := do
  let (o, bindings) ← s.bind d p
  return {
    name := o.name
    arguments := o.parameters.filterMap fun e => bindings.find? e.name
    precondition := o.precondition.substitute bindings
    effect := o.effect.substitute bindings }

end PlanStep

/-- The atoms of all steps, or the first error. -/
def Plan.ground (d : Domain) (p : Problem) : Plan → Except Error (List Application)
  | [] => .ok []
  | s :: ss => do
    let a ← s.ground d p
    let as ← Plan.ground d p ss
    return a :: as

end Pddl
