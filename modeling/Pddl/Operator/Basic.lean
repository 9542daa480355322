import Pddl.Formula.Expansion
import Pddl.Formula.Printer

namespace Pddl

structure Duration where
  relation : Relation
  value : Numeric
  deriving DecidableEq, Repr

structure Operator where
  name : String
  parameters : List Entity
  precondition : Formula
  effect : Formula
  duration : Option Duration
  deriving Repr

namespace Operator

def arity (o : Operator) : Nat := o.parameters.length

def signature (o : Operator) : Signature := ⟨o.name, o.parameters.map Entity.type⟩

/-- The lines of the precondition, one for each term, without free negation. -/
def conditionLines (o : Operator) : List String :=
  (o.precondition.expandNegations o.parameters).map fun f => "\t\t\t" ++ f.text ++ "\n"

def durationLine (d : Duration) : String :=
  "\t\t:duration (" ++ d.relation.text ++ " ?duration " ++ d.value.text ++ ")\n"

def text (o : Operator) : String :=
  let keyword := if o.duration.isSome then ":durative-action" else ":action"
  let condition := if o.duration.isSome then ":condition" else ":precondition"
  "\t(" ++ keyword ++ " " ++ o.name ++ "\n" ++
    "\t\t:parameters (" ++ Entity.texts o.parameters ++ ")\n" ++
    Text.concat (o.duration.toList.map durationLine) ++
    "\t\t" ++ condition ++ " (and\n" ++
    Text.concat o.conditionLines ++
    "\t\t)\n" ++
    "\t\t:effect " ++ o.effect.text ++ "\n" ++
    "\t)"

end Operator

end Pddl
