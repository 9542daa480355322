import Pddl.Proofs.Grounding.Groundness

namespace Pddl

theorem Operator.Sound.freeVariables_substitute {o : Operator} {symbols : Symbols} {scope : Scope}
    (h : o.Sound symbols scope) {f : Formula} (hf : ∀ n ∈ f.nodes [], n.Sound symbols scope)
    {objects : List Entity} (hlength : objects.length = o.parameters.length)
    (hobjects : ∀ x ∈ objects, x.isVariable = false)
    (hconstants : ∀ x ∈ symbols.constants, x.isVariable = false) :
    (f.substitute (.ofParameters o.parameters objects)).freeVariables = [] := by
  rw [f.freeVariables_substitute (Bindings.isGround_ofParameters hobjects), List.filter_eq_nil_iff]
  intro e he
  have hsees := Symbols.sees_of_mem_freeVariables hf e he
  rcases h.apply_cases hlength hsees with ⟨x, hx, -⟩ | ⟨hother, -⟩
  · rw [Bindings.find?_ofParameters h.nodup hx]
    simp
  · -- what is visible under another name than the parameters is a constant, hence no variable
    have hparameter : e ∉ o.parameters := fun hmem => hother e hmem rfl
    have hconstant := hconstants e ((h.mem_of_sees hsees).resolve_left hparameter)
    have hvariable := (Formula.mem_freeVariables.1 he).1
    simp [hconstant] at hvariable

namespace PlanStep

/-- Substituting values that are no variables leaves exactly the free variables without a value. So
where no object and no constant is named like a variable, instantiated formulas have none, with the
arguments of the step for the parameters in order. -/
theorem freeVariables_instantiate :
    (∀ (f : Formula) (b : Bindings), b.IsGround →
      (f.substitute b).freeVariables =
        f.freeVariables.filter fun e => (b.find? e.name).isNone) ∧
      ∀ {config : Config} {text : String} {d : Domain} {p : Problem} {s : PlanStep} {a : Action},
        (Domain.read config text).result = .ok d → (∀ e, p.Knows d e → e.isVariable = false) →
          s.instantiate d p = .ok a →
            a.precondition.freeVariables = [] ∧ a.effect.freeVariables = [] ∧
              ∃ o, d.operator? s.name = some o ∧ a.arguments.length = o.arity ∧
                p.resolveAll d s.parameters = .ok a.arguments ∧ o.action a.arguments = a := by
  refine ⟨fun f b hb => f.freeVariables_substitute hb, fun {config text d p s a} hd hknows ha => ?_⟩
  obtain ⟨o, objects, hbinds, rfl⟩ := (instantiate_eq_ok (Domain.nodup_of_read hd)).1 ha
  obtain ⟨scope, hsound⟩ := Domain.sound_of_read hd hbinds.mem_operators
  have hobjects : ∀ x ∈ objects, x.isVariable = false :=
    fun x hx => hknows x (Problem.knows_of_resolveAll hbinds.resolves x hx)
  have hconstants : ∀ x ∈ d.constants, x.isVariable = false := fun x hx => hknows x (Or.inr hx)
  exact ⟨hsound.freeVariables_substitute hsound.precondition hbinds.length hobjects hconstants,
    hsound.freeVariables_substitute hsound.effect hbinds.length hobjects hconstants,
    o, hbinds.operator, hbinds.length, hbinds.resolves, rfl⟩

def closing : String :=
  "(define (domain d) (:constants k) (:predicates (p ?x ?y)) (:functions (f ?x)) " ++
    "(:action a :parameters (?x) :precondition (exists (?y) (p ?x ?y)) " ++
    ":effect (probabilistic 0.5 (when (p ?x k) (increase (f ?x) (f k))))))"

theorem freeVariables_instantiate_closing :
    (∀ f : Formula, (f.substitute (.ofParameters [⟨"?x", "t"⟩] [⟨"b", "t"⟩])).freeVariables =
      f.freeVariables.filter fun e =>
        ((Bindings.ofParameters [⟨"?x", "t"⟩] [⟨"b", "t"⟩]).find? e.name).isNone) ∧
    ∃ d, (Domain.read .default closing).result = .ok d ∧
      ∃ p, (Problem.read d "(define (problem q) (:domain d) (:objects b))").result = .ok p ∧
        ∃ a, instantiate ⟨"a", ["b"], none, none, none⟩ d p = .ok a ∧
          a.precondition.freeVariables = [] ∧ a.effect.freeVariables = [] ∧
            ∃ o, d.operator? "a" = some o ∧ a.arguments.length = o.arity ∧
              p.resolveAll d ["b"] = .ok a.arguments ∧ o.action a.arguments = a := by
  obtain ⟨d, hd, p, hp, a, ha, hobjects, hconstants⟩ :
      ∃ d, (Domain.read .default closing).result = .ok d ∧
        ∃ p, (Problem.read d "(define (problem q) (:domain d) (:objects b))").result = .ok p ∧
          ∃ a, instantiate ⟨"a", ["b"], none, none, none⟩ d p = .ok a ∧
            (∀ e ∈ p.objects, e.isVariable = false) ∧ ∀ e ∈ d.constants, e.isVariable = false := by
    decide +kernel
  have hknows : ∀ e, p.Knows d e → e.isVariable = false :=
    fun e he => he.elim (hobjects e) (hconstants e)
  have hground : (Bindings.ofParameters [⟨"?x", "t"⟩] [⟨"b", "t"⟩]).IsGround :=
    Bindings.isGround_ofParameters (by decide)
  exact ⟨fun f => freeVariables_instantiate.1 f _ hground,
    d, hd, p, hp, a, ha, freeVariables_instantiate.2 hd hknows ha⟩

end PlanStep

end Pddl
