import Pddl.CommandLine.Arguments
import Pddl.Config.Toml
import Pddl.Domain.Determinize
import Pddl.Domain.Printer
import Pddl.Domain.Reader
import Pddl.Files
import Pddl.Grounding
import Pddl.Problem.Reader

namespace Pddl

/-- A visible step of a command. -/
inductive Effect where
  | print (line : String)
  | write (path text : String)
  deriving DecidableEq, Repr

structure Transcript where
  effects : List Effect
  error : Option Error
  deriving DecidableEq, Repr

namespace Transcript

def ofExcept : Except Error (List Effect) → Transcript
  | .ok effects => ⟨effects, none⟩
  | .error e => ⟨[], some e⟩

/-- The rest behind the steps of `first`, unless those are an error. -/
def followedBy (first : Except Error (List Effect)) (rest : Transcript) : Transcript :=
  match first with
  | .ok effects => ⟨effects ++ rest.effects, rest.error⟩
  | .error e => ⟨[], some e⟩

end Transcript

namespace Command

def deliver (output : Option String) (text : String) : Effect :=
  match output with
  | some path => .write path text
  | none => .print text

def describeStep (d : Domain) (p : Problem) (instantiate : Bool) (s : PlanStep) :
    Except Error (List Effect) :=
  if instantiate then do
    let a ← s.instantiate d p
    return [.print a.text, .print ("\t:precondition " ++ a.precondition.text),
      .print ("\t:effect " ++ a.effect.text)]
  else do
    let a ← s.ground d p
    return [.print a.text]

def describeSteps (d : Domain) (p : Problem) (instantiate : Bool) : Plan → Transcript
  | [] => ⟨[], none⟩
  | s :: ss => .followedBy (describeStep d p instantiate s) (describeSteps d p instantiate ss)

def readProblem (read : String → Except Error String) (d : Domain) (path : String) :
    Except Error Problem := do
  let text ← read path
  (Problem.read d text).result

def readOptional (read : String → Except Error String) (d : Domain) :
    Option String → Except Error (Option Problem)
  | none => .ok none
  | some path => do
    let p ← readProblem read d path
    return some p

def renderEffects (config : Config) (d : Domain) (p : Option Problem)
    (domainOutput problemOutput : Option String) : List Effect :=
  deliver domainOutput d.text ::
    p.toList.map fun p => deliver problemOutput (p.text config.layout)

/-- Runs a command on a domain; `read` gives the texts of files. -/
def run (read : String → Except Error String) (config : Config) (d : Domain) :
    Command → Transcript
  | .check problem => .ofExcept do
    let _ ← readOptional read d problem
    return [.print "ok"]
  | .render problem determinize domainOutput problemOutput => .ofExcept do
    let p ← readOptional read d problem
    let d ← if determinize then d.determinize else pure d
    return renderEffects config d p domainOutput problemOutput
  | .ground problem plan instantiate =>
    match (do
      let p ← readProblem read d problem
      let text ← read plan
      let plan ← Plan.ofText text
      return (p, plan) : Except Error (Problem × Plan)) with
    | .ok (p, plan) => describeSteps d p instantiate plan
    | .error e => ⟨[], some e⟩

end Command

namespace Invocation

def inputs (i : Invocation) : List String :=
  let others :=
    match i.command with
    | .check problem => problem.toList
    | .render problem _ _ _ => problem.toList
    | .ground problem plan _ => [problem, plan]
  i.config.toList ++ i.domain :: others

def readConfig (read : String → Except Error String) : Option String → Except Error Config
  | none => .ok .default
  | some path => do
    let text ← read path
    Config.read text

def run (read : String → Except Error String) (i : Invocation) : Transcript :=
  match (do
    let config ← readConfig read i.config
    let text ← read i.domain
    let d ← (Domain.read config text).result
    return (config, d) : Except Error (Config × Domain)) with
  | .ok (config, d) => i.command.run read config d
  | .error e => ⟨[], some e⟩

end Invocation

structure Outcome where
  exitCode : Nat
  output : String
  files : Files

namespace Outcome

/-- Takes the steps in turn; a file that cannot be written ends them. -/
def perform (o : Outcome) (error : Option Error) : List Effect → Outcome
  | [] => { o with exitCode := if error.isSome then 1 else 0 }
  | .print line :: rest => { o with output := o.output ++ line ++ "\n" }.perform error rest
  | .write path text :: rest =>
    match o.files.write path text with
    | .ok files => { o with files }.perform error rest
    | .error _ => { o with exitCode := 1 }

def ofWords (files : Files) (words : List String) : Outcome :=
  match Invocation.ofWords? words with
  | none => ⟨2, "", files⟩
  | some i =>
    let t := i.run files.read
    (Outcome.mk 0 "" files).perform t.error t.effects

end Outcome

end Pddl
