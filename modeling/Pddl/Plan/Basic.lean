import Pddl.Plan.Step

namespace Pddl

abbrev Plan := List PlanStep

namespace Plan

open Attempt PlanStep

/-- Steps with margins between and around them, at the front of a text. -/
def readSteps (e : Excerpt) : Attempt Plan :=
  (manySeparated (run isMargin) readStep (run_shortens isMargin) readStep_shortens
      (e.dropWhile isMargin)).andThen fun steps rest => .done steps (rest.dropWhile isMargin)

def ofText (text : String) : Except Error Plan :=
  (readSteps (.ofString (Text.prepare text))).finish

end Plan

end Pddl
