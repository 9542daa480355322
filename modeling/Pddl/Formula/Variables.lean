import Pddl.Formula.Basic

namespace Pddl.Formula

def freeAmong (bound : List String) (es : List Entity) : List Entity :=
  es.filter fun e => e.isVariable && !bound.contains e.name

mutual

/-- The free variables from left to right, with repetitions, below binders of the names `bound`. -/
def freeOccurrences (bound : List String) : Formula → List Entity
  | .atom a => freeAmong bound a.arguments
  | .equal a b => freeAmong bound [a, b]
  | .different a b => freeAmong bound [a, b]
  | .comparison _ t v => freeAmong bound (t.variableArguments ++ v.variableArguments)
  | .assign _ t v => freeAmong bound (t.variableArguments ++ v.variableArguments)
  | .not body => freeOccurrences bound body
  | .delete body => freeOccurrences bound body
  | .timed _ body => freeOccurrences bound body
  | .and terms => freeOccurrencesAll bound terms
  | .or terms => freeOccurrencesAll bound terms
  | .imply l r => freeOccurrences bound l ++ freeOccurrences bound r
  | .when c e => freeOccurrences bound c ++ freeOccurrences bound e
  | .forAll vs body => freeOccurrences (vs.map Entity.name ++ bound) body
  | .thereIs vs body => freeOccurrences (vs.map Entity.name ++ bound) body
  | .probabilistic outcomes => freeOccurrencesOutcomes bound outcomes

def freeOccurrencesAll (bound : List String) : List Formula → List Entity
  | [] => []
  | f :: fs => freeOccurrences bound f ++ freeOccurrencesAll bound fs

def freeOccurrencesOutcomes (bound : List String) : List (Number × Formula) → List Entity
  | [] => []
  | (_, f) :: rest => freeOccurrences bound f ++ freeOccurrencesOutcomes bound rest

end

def freeVariables (f : Formula) : List Entity := Sorted.ofList (freeOccurrences [] f)

mutual

/-- Replaces every entity that has a binding and is not bound by a quantifier. Binders are not
renamed. -/
def substitute (b : Bindings) : Formula → Formula
  | .atom a => .atom (a.substitute b)
  | .not body => .not (body.substitute b)
  | .delete body => .delete (body.substitute b)
  | .and terms => .and (substituteAll b terms)
  | .or terms => .or (substituteAll b terms)
  | .imply l r => .imply (l.substitute b) (r.substitute b)
  | .forAll vs body => .forAll vs (body.substitute (b.without vs))
  | .thereIs vs body => .thereIs vs (body.substitute (b.without vs))
  | .when c e => .when (c.substitute b) (e.substitute b)
  | .assign u t v => .assign u (t.substitute b) (v.substitute b)
  | .probabilistic outcomes => .probabilistic (substituteOutcomes b outcomes)
  | .comparison r t v => .comparison r (t.substitute b) (v.substitute b)
  | .equal x y => .equal (b.apply x) (b.apply y)
  | .different x y => .different (b.apply x) (b.apply y)
  | .timed time body => .timed time (body.substitute b)

def substituteAll (b : Bindings) : List Formula → List Formula
  | [] => []
  | f :: fs => f.substitute b :: substituteAll b fs

def substituteOutcomes (b : Bindings) : List (Number × Formula) → List (Number × Formula)
  | [] => []
  | (p, f) :: rest => (p, f.substitute b) :: substituteOutcomes b rest

end

theorem substituteAll_eq_map (b : Bindings) (fs : List Formula) :
    substituteAll b fs = fs.map (substitute b) := by
  induction fs with
  | nil => simp [substituteAll]
  | cons f fs ih => simp [substituteAll, ih]

theorem substituteOutcomes_eq_map (b : Bindings) (outcomes : List (Number × Formula)) :
    substituteOutcomes b outcomes = outcomes.map fun (p, f) => (p, f.substitute b) := by
  induction outcomes with
  | nil => simp [substituteOutcomes]
  | cons o rest ih => obtain ⟨p, f⟩ := o; simp [substituteOutcomes, ih]

end Pddl.Formula
