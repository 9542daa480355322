import Pddl.Formula.Order
import Pddl.Formula.Printer
import Pddl.Config.Basic

namespace Pddl

/-- What holds in the initial state: an atom, or the value of a function term. -/
inductive Fact where
  | atom (atom : Application)
  | fluent (term : Application) (value : Number)
  deriving DecidableEq, Repr

namespace Fact

def head : Fact → String
  | .atom a => a.head
  | .fluent t _ => t.head

def text : Fact → String
  | .atom a => a.text
  | .fluent t v => "(= " ++ t.text ++ " " ++ v.toString ++ ")"

protected def compare : Fact → Fact → Ordering
  | .atom a, .atom b => Ord.compare a b
  | .atom _, .fluent _ _ => .lt
  | .fluent _ _, .atom _ => .gt
  | .fluent t v, .fluent u w => (Ord.compare t u).then (Ord.compare v w)

instance : Ord Fact := ⟨Fact.compare⟩

end Fact

/-- A problem; its objects and its initial state are sets. -/
structure Problem where
  name : String
  domainName : String
  objects : List Entity
  init : List Fact
  goal : Formula
  deriving Repr

namespace Problem

def objectsNamed (p : Problem) (name : String) : List Entity :=
  p.objects.filter (·.name = name)

/-- Equality of problems, where the two zeros are the same number. -/
def same (p q : Problem) : Bool :=
  p.name = q.name && p.domainName = q.domainName && p.objects = q.objects &&
    Sorted.compareLists p.init q.init = .eq && p.goal.same q.goal

def objectsText (p : Problem) : String :=
  "\t(:objects\n" ++ Text.concat (p.objects.map fun e => "\t\t" ++ e.text ++ "\n") ++ "\t)\n"

def initText (p : Problem) : String :=
  "\t(:init\n" ++ Text.concat (p.init.map fun f => "\t\t" ++ f.text ++ "\n") ++ "\t)\n"

def goalText (p : Problem) : String :=
  "\t(:goal " ++ p.goal.text ++ ")\n"

def text (p : Problem) (layout : Layout) : String :=
  let sections :=
    match layout with
    | .fastDownward => p.initText ++ p.goalText
    | .goalFirst => p.goalText ++ p.initText
  "(define (problem " ++ p.name ++ ") (:domain " ++ p.domainName ++ ")\n" ++ p.objectsText ++
    sections ++ ")"

end Problem

end Pddl
