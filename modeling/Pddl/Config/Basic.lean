import Pddl.Error

namespace Pddl

/-- The order of the last two sections of a problem. -/
inductive Layout where
  | fastDownward
  | goalFirst
  deriving DecidableEq, Repr

namespace Layout

def text : Layout → String
  | .fastDownward => "fast-downward"
  | .goalFirst => "goal-first"

def ofText? (s : String) : Option Layout := [fastDownward, goalFirst].find? (·.text = s)

end Layout

structure Config where
  /-- Every operator is an action predicate of the same name as well. -/
  operatorsAsActions : Bool
  /-- A domain has to name its action predicates. -/
  expectActionPredicates : Bool
  layout : Layout
  deriving DecidableEq, Repr

namespace Config

def default : Config := ⟨false, false, .fastDownward⟩

def validate (c : Config) : Except Error Unit :=
  if c.operatorsAsActions && c.expectActionPredicates then .error .contradictoryConfig else .ok ()

end Config

end Pddl
