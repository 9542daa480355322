import Pddl.Formula.Outcomes

namespace Pddl.Formula

mutual

/-- The effect with the most likely outcomes; nothing if no change is the most likely. Below
quantifiers and conditions nothing becomes the empty conjunction. -/
def determinize : Formula → Option Formula
  | .probabilistic outcomes =>
    match mostLikely (determinizeOutcomes outcomes) with
    | some (_, f) => f
    | none => none
  | .and terms => some (.and (determinizeAll terms))
  | .forAll vs body => some (.forAll vs (body.determinize.getD trivial))
  | .when c e => some (.when c (e.determinize.getD trivial))
  | .timed time body => body.determinize.map (.timed time)
  | f => some f

def determinizeAll : List Formula → List Formula
  | [] => []
  | f :: fs =>
    match f.determinize with
    | some g => g :: determinizeAll fs
    | none => determinizeAll fs

def determinizeOutcomes : List (Number × Formula) → List (Number × Option Formula)
  | [] => []
  | (p, f) :: rest => (p, f.determinize) :: determinizeOutcomes rest

end

theorem determinizeOutcomes_eq_map (outcomes : List (Number × Formula)) :
    determinizeOutcomes outcomes = outcomes.map fun (p, f) => (p, f.determinize) := by
  induction outcomes with
  | nil => simp [determinizeOutcomes]
  | cons o rest ih => obtain ⟨p, f⟩ := o; simp [determinizeOutcomes, ih]

end Pddl.Formula
