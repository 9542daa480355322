import Pddl.Proofs.Formula.Grammar
import Pddl.Proofs.Types

namespace Pddl

namespace Symbols

/-- Whether two tables differ at most in the order in which types are declared. -/
structure Agrees (symbols others : Symbols) : Prop where
  types : symbols.types.Agrees others.types
  predicates : symbols.predicates = others.predicates
  functions : symbols.functions = others.functions
  constants : symbols.constants = others.constants

end Symbols

theorem Application.Checked.of_agrees {a : Application} {signatures : List Signature}
    {t u : Types} {scope : Scope} (h : a.Checked signatures t scope) (hagrees : t.Agrees u) :
    a.Checked signatures u scope := by
  obtain ⟨⟨s, hs, harity, htypes⟩, hsees⟩ := h
  exact ⟨⟨s, hs, harity, fun p hp => hagrees.isConsistent _ _ ▸ htypes p hp⟩, hsees⟩

namespace Symbols

variable {symbols others : Symbols} {scope : Scope} {mode : Mode}

theorem Values.of_agrees {s : Shape} {x : Numeric} (h : symbols.Values scope s x)
    (hagrees : symbols.Agrees others) : others.Values scope s x := by
  induction h with
  | number h => exact .number h
  | function hhead hchecked =>
    exact .function hhead (hagrees.functions ▸ hchecked.of_agrees hagrees.types)
  | negated _ ih => exact .negated ih
  | folded op hne hlen _ _ ihfirst ihrest => exact .folded op hne hlen ihfirst ihrest

theorem Denotes.of_agrees {s : Shape} {f : Formula} (h : symbols.Denotes scope mode s f)
    (hagrees : symbols.Agrees others) : others.Denotes scope mode s f := by
  induction h with
  | trivial => exact .trivial
  | atom hhead hchecked =>
    exact .atom hhead (hagrees.predicates ▸ hchecked.of_agrees hagrees.types)
  | not _ ih => exact .not ih
  | delete _ ih => exact .delete ih
  | and hlen _ ih => exact .and hlen ih
  | or hlen _ ih => exact .or hlen ih
  | imply _ _ ihleft ihright => exact .imply ihleft ihright
  | forAll hbinders hne hbind _ ih =>
    exact .forAll (hagrees.types.declares hbinders) hne hbind ih
  | thereIs hbinders hne hbind _ ih =>
    exact .thereIs (hagrees.types.declares hbinders) hne hbind ih
  | unbound hquantifier hbinders _ ih =>
    exact .unbound hquantifier (hagrees.types.declares hbinders) ih
  | when _ _ ihcondition iheffect => exact .when ihcondition iheffect
  | assign ha hx =>
    exact .assign (hagrees.functions ▸ ha.of_agrees hagrees.types) (hx.of_agrees hagrees)
  | probabilistic hlen hprobability _ htotal ih => exact .probabilistic hlen hprobability ih htotal
  | comparison ha hx =>
    exact .comparison (hagrees.functions ▸ ha.of_agrees hagrees.types) (hx.of_agrees hagrees)
  | equal ha hb => exact .equal ha hb
  | different hbuiltin ha hb =>
    refine .different ?_ ha hb
    rwa [predicate?, ← hagrees.predicates]
  | timed time _ ih => exact .timed time ih

end Symbols

end Pddl
