import Pddl.Domain.Basic
import Pddl.Formula.Determinize

namespace Pddl

def Operator.determinize (o : Operator) : Operator :=
  { o with effect := o.effect.determinize.getD .trivial }

/-- The domain with all operators determinized; only a probabilistic domain has one. -/
def Domain.determinize (d : Domain) : Except Error Domain :=
  if d.isProbabilistic then .ok (d.withOperators (d.operators.map Operator.determinize))
  else .error (.notProbabilistic d.name)

end Pddl
