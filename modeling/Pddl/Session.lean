import Pddl.Config.Toml
import Pddl.Domain.Determinize
import Pddl.Domain.Printer
import Pddl.Domain.Reader
import Pddl.Files
import Pddl.Grounding
import Pddl.Problem.Reader

namespace Pddl

inductive Source where
  | text (text : String)
  | file (path : String)

/-- What later steps refer to; a step that fails leaves it as it was. -/
structure Session where
  config : Config
  domain : Option Domain
  problem : Option Problem
  plan : Option Plan
  files : Files

/-- Why a step of a session fails: a part of the session that it needs is missing, or an error. -/
inductive Session.Failure where
  | noDomain
  | noProblem
  | noPlan
  | error (error : Error)

namespace Session

def start : Session := ⟨.default, none, none, none, .empty⟩

def ofError {α : Type} : Except Error α → Except Failure α
  | .ok a => .ok a
  | .error e => .error (.error e)

def textOf (s : Session) : Source → Except Error String
  | .text t => .ok t
  | .file path => s.files.read path

def theDomain (s : Session) : Except Failure Domain :=
  match s.domain with
  | some d => .ok d
  | none => .error .noDomain

def theProblem (s : Session) : Except Failure Problem :=
  match s.problem with
  | some p => .ok p
  | none => .error .noProblem

def thePlan (s : Session) : Except Failure Plan :=
  match s.plan with
  | some p => .ok p
  | none => .error .noPlan

def loadConfig (s : Session) (path : String) : Except Failure Session := ofError do
  let text ← s.files.read path
  let config ← Config.read text
  return { s with config }

def readDomain (s : Session) (source : Source) : Report Domain := do
  let text ← s.textOf source
  Domain.read s.config text

def readProblem (s : Session) (d : Domain) (source : Source) : Report Problem := do
  let text ← s.textOf source
  Problem.read d text

def loadPlan (s : Session) (source : Source) : Except Failure (Plan × Session) := ofError do
  let text ← s.textOf source
  let plan ← Plan.ofText text
  return (plan, { s with plan := some plan })

def determinize (s : Session) : Except Failure (Domain × Session) := do
  let d ← s.theDomain
  let d ← ofError d.determinize
  return (d, { s with domain := some d })

/-- Keeps the first operator of each name, in the order of the names. -/
def keepOperators (s : Session) (names : List String) : Except Failure (Domain × Session) := do
  let d ← s.theDomain
  let d := d.withOperators (names.filterMap d.operator?)
  return (d, { s with domain := some d })

def writeDomain (s : Session) (path : String) : Except Failure (String × Session) := do
  let d ← s.theDomain
  let files ← ofError (s.files.write path d.text)
  return (d.text, { s with files })

def writeProblem (s : Session) (path : String) (layout : Layout) :
    Except Failure (String × Session) := do
  let p ← s.theProblem
  let files ← ofError (s.files.write path (p.text layout))
  return (p.text layout, { s with files })

def setObjects (s : Session) (objects : List Entity) : Except Failure (Problem × Session) := do
  let p ← s.theProblem
  let p := { p with objects := Sorted.ofList objects }
  return (p, { s with problem := some p })

def setInit (s : Session) (facts : List Fact) : Except Failure (Problem × Session) := do
  let p ← s.theProblem
  let p := { p with init := Sorted.ofList facts }
  return (p, { s with problem := some p })

def setGoal (s : Session) (text : String) : Except Failure (Problem × Session) := do
  let d ← s.theDomain
  let p ← s.theProblem
  let scope := Scope.ofEntities (d.constants ++ p.objects)
  let goal ← ofError (d.readFormula "a formula" scope .condition (Excerpt.ofString text).tree)
  let p := { p with goal }
  return (p, { s with problem := some p })

def ground (s : Session) (line : String) : Except Failure Application := do
  let d ← s.theDomain
  let p ← s.theProblem
  let step ← ofError (PlanStep.ofLine line)
  ofError (step.ground d p)

def instantiate (s : Session) (line : String) : Except Failure Action := do
  let d ← s.theDomain
  let p ← s.theProblem
  let step ← ofError (PlanStep.ofLine line)
  ofError (step.instantiate d p)

def groundPlan (s : Session) : Except Failure (List Application) := do
  let plan ← s.thePlan
  let d ← s.theDomain
  let p ← s.theProblem
  ofError (Plan.ground d p plan)

end Session

end Pddl
