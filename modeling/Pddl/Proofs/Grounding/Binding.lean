import Pddl.Grounding
import Pddl.Proofs.Domain.Soundness
import Pddl.Proofs.Formula.Substitution

namespace Pddl

variable {d : Domain} {p : Problem}

theorem Problem.resolve_eq_ok {name : String} {e : Entity} :
    p.resolve d name = .ok e ↔ p.candidates d name = [e] := by
  unfold resolve
  split
  · rename_i c hc
    simp [hc]
  · rename_i hnot
    simp only [reduceCtorEq, false_iff]
    exact hnot e

theorem Problem.resolveAll_eq_ok {names : List String} {es : List Entity} :
    p.resolveAll d names = .ok es ↔
      List.Forall₂ (fun name e => p.candidates d name = [e]) names es := by
  induction names generalizing es with
  | nil => cases es <;> simp [resolveAll]
  | cons name names ih =>
    simp only [resolveAll, bind_eq_ok, resolve_eq_ok, ih, pure_eq_ok, List.forall₂_cons_left_iff]
    constructor
    · rintro ⟨e, he, es, hes, rfl⟩
      exact ⟨e, es, he, hes, rfl⟩
    · rintro ⟨e, es, he, hes, rfl⟩
      exact ⟨e, he, es, hes, rfl⟩

namespace PlanStep

variable {s : PlanStep}

/-- Whether the step names the operator and an object for each of its parameters. -/
structure Binds (s : PlanStep) (d : Domain) (p : Problem) (o : Operator) (objects : List Entity) :
    Prop where
  operator : d.operator? s.name = some o
  resolves : p.resolveAll d s.parameters = .ok objects
  length : objects.length = o.parameters.length

theorem bind_eq_ok {o : Operator} {b : Bindings} :
    s.bind d p = .ok (o, b) ↔
      ∃ objects, s.Binds d p o objects ∧ .ofParameters o.parameters objects = b := by
  unfold bind
  constructor
  · intro h
    split at h
    · simp at h
    · rename_i o' ho
      rw [ite_error_eq_ok, not_not, Pddl.bind_eq_ok] at h
      obtain ⟨harity, objects, hobjects, h⟩ := h
      obtain ⟨rfl, rfl⟩ : o' = o ∧ Bindings.ofParameters o'.parameters objects = b := by
        simpa [pure_eq_ok] using h
      have hlength := (Problem.resolveAll_eq_ok.1 hobjects).length_eq
      exact ⟨objects, ⟨ho, hobjects, hlength.symm.trans harity.symm⟩, rfl⟩
  · rintro ⟨objects, ⟨ho, hobjects, hlength⟩, rfl⟩
    have hnames := (Problem.resolveAll_eq_ok.1 hobjects).length_eq
    have harity : ¬o.arity ≠ s.parameters.length := by simp [Operator.arity, hnames, hlength]
    simp [ho, harity, hobjects]

theorem Binds.unique {o q : Operator} {objects others : List Entity} (h : s.Binds d p o objects)
    (h' : s.Binds d p q others) : o = q ∧ objects = others := by
  constructor
  · exact Option.some.inj (h.operator.symm.trans h'.operator)
  · exact Except.ok.inj (h.resolves.symm.trans h'.resolves)

theorem Binds.mem_operators {o : Operator} {objects : List Entity} (h : s.Binds d p o objects) :
    o ∈ d.operators :=
  List.mem_of_find?_eq_some h.operator

end PlanStep

namespace Operator.Sound

variable {o : Operator} {symbols : Symbols} {scope : Scope} {objects : List Entity}

theorem nodup (h : o.Sound symbols scope) : (o.parameters.map Entity.name).Nodup :=
  (Scope.bind_eq_ok.1 h.bind).2.1

/-- What is visible in an operator is a parameter, which the object in its place replaces, or has
another name than all parameters and stays. -/
theorem apply_cases (h : o.Sound symbols scope) (hlength : objects.length = o.parameters.length)
    {e : Entity} (he : scope.Sees e) :
    (∃ x, (e, x) ∈ o.parameters.zip objects ∧
      (Bindings.ofParameters o.parameters objects).apply e = x) ∨
    ((∀ q ∈ o.parameters, q.name ≠ e.name) ∧
      (Bindings.ofParameters o.parameters objects).apply e = e) := by
  obtain ⟨rfl, hnodup, -⟩ := Scope.bind_eq_ok.1 h.bind
  rcases Scope.sees_append he with hparameter | ⟨hother, -⟩
  · obtain ⟨i, hi, rfl⟩ := List.getElem_of_mem (List.mem_reverse.1 hparameter)
    have hobject : i < objects.length := by omega
    have hzip : (o.parameters[i], objects[i]) ∈ o.parameters.zip objects := by
      have hboth : i < (o.parameters.zip objects).length := by
        rw [List.length_zip]
        omega
      exact List.mem_iff_getElem.2 ⟨i, hboth, List.getElem_zip⟩
    refine Or.inl ⟨_, hzip, ?_⟩
    rw [Bindings.apply, Bindings.find?_ofParameters hnodup hzip, Option.getD_some]
  · have hnone : ∀ q ∈ o.parameters, q.name ≠ e.name :=
      fun q hq => hother q (List.mem_reverse.2 hq)
    refine Or.inr ⟨hnone, ?_⟩
    rw [Bindings.apply, Bindings.find?_ofParameters_of_ne hnone, Option.getD_none]

end Operator.Sound

theorem Domain.nodup_of_read {config : Config} {text : String}
    (h : (Domain.read config text).result = .ok d) :
    ∀ o ∈ d.operators, (o.parameters.map Entity.name).Nodup := by
  intro o ho
  obtain ⟨scope, hsound⟩ := Domain.sound_of_read h ho
  exact hsound.nodup

/-- The operator with the objects in place of its parameters. -/
def Operator.action (o : Operator) (objects : List Entity) : Action :=
  { name := o.name
    arguments := objects
    precondition := o.precondition.substitute (.ofParameters o.parameters objects)
    effect := o.effect.substitute (.ofParameters o.parameters objects) }

theorem Bindings.filterMap_find?_ofParameters {parameters objects : List Entity}
    (hnodup : (parameters.map Entity.name).Nodup) (hlength : objects.length = parameters.length) :
    parameters.filterMap (fun e => (ofParameters parameters objects).find? e.name) = objects := by
  refine filterMap_eq_of_zip hlength fun p x hpx => ?_
  exact find?_ofParameters hnodup hpx

namespace PlanStep

variable {s : PlanStep}

theorem instantiate_eq_ok {a : Action}
    (hnodup : ∀ o ∈ d.operators, (o.parameters.map Entity.name).Nodup) :
    s.instantiate d p = .ok a ↔ ∃ o objects, s.Binds d p o objects ∧ o.action objects = a := by
  simp only [instantiate, Pddl.bind_eq_ok, Prod.exists, bind_eq_ok, pure_eq_ok]
  constructor
  · rintro ⟨o, b, ⟨objects, hbinds, rfl⟩, rfl⟩
    refine ⟨o, objects, hbinds, ?_⟩
    rw [Bindings.filterMap_find?_ofParameters (hnodup o hbinds.mem_operators) hbinds.length]
    rfl
  · rintro ⟨o, objects, hbinds, rfl⟩
    refine ⟨o, _, ⟨objects, hbinds, rfl⟩, ?_⟩
    rw [Bindings.filterMap_find?_ofParameters (hnodup o hbinds.mem_operators) hbinds.length]
    rfl

end PlanStep

end Pddl
