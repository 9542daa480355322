import Pddl.Problem.Reader
import Pddl.Proofs.Formula.Satisfaction
import Pddl.Proofs.Grounding.Binding

namespace Pddl

universe u v

variable {Ω : Type u} {V : Type v}

/-- Whether the parameters stand in `ρ` for what the objects in their places stand for in `ν`, and
everything else for the same as in `ν`. -/
structure Environment.Assigns (ρ ν : Environment Ω) (parameters objects : List Entity) : Prop where
  parameter : ∀ x ∈ parameters.zip objects, ρ x.1 = ν x.2
  other : ∀ e, (∀ q ∈ parameters, q.name ≠ e.name) → ρ e = ν e

theorem Environment.exists_assigns (ν : Environment Ω) {parameters objects : List Entity}
    (hnodup : (parameters.map Entity.name).Nodup) :
    ∃ ρ : Environment Ω, ρ.Assigns ν parameters objects := by
  refine ⟨fun e => ν ((Bindings.ofParameters parameters objects).apply e), fun x hx => ?_,
    fun e he => ?_⟩
  · rw [Bindings.apply, Bindings.find?_ofParameters hnodup hx, Option.getD_some]
  · rw [Bindings.apply, Bindings.find?_ofParameters_of_ne he, Option.getD_none]

theorem Operator.Sound.satisfied_action {o : Operator} {symbols : Symbols} {scope : Scope}
    (h : o.Sound symbols scope) {objects : List Entity}
    (hlength : objects.length = o.parameters.length)
    (hcaptures : ¬o.precondition.Captures (.ofParameters o.parameters objects))
    {I : Interpretation Ω V} {s : State Ω V} {ν ρ : Environment Ω}
    (hassigns : ρ.Assigns ν o.parameters objects) :
    (o.action objects).precondition.Satisfied I s ν ↔ o.precondition.Satisfied I s ρ := by
  refine Formula.satisfied_substitute hcaptures fun n hn e he hfree => ?_
  -- what no quantifier binds is visible outside the precondition
  have hsees : scope.Sees e :=
    ((h.precondition n hn).arguments e he).resolve_right fun hmem => hfree e hmem rfl
  rcases h.apply_cases hlength hsees with ⟨x, hx, happly⟩ | ⟨hother, happly⟩
  · rw [happly]
    exact hassigns.parameter _ hx
  · rw [happly]
    exact hassigns.other e hother

/-- Nothing is captured where the names of quantified variables begin with a question mark and those
of the objects do not. -/
theorem Formula.not_captures_of_isVariable {f : Formula} {parameters objects : List Entity}
    (hbinders : ∀ n ∈ f.nodes [], ∀ v ∈ n.binders, v.isVariable = true)
    (hobjects : ∀ x ∈ objects, x.isVariable = false) :
    ¬f.Captures (.ofParameters parameters objects) := by
  refine Formula.not_captures fun name x hx => ?_
  rintro ⟨n, hn, v, hv, hname⟩
  have hvariable := hbinders n hn v hv
  have hobject := hobjects x (List.of_mem_zip (Bindings.mem_of_find? hx)).2
  rw [Entity.isVariable, hname] at hvariable
  exact Bool.false_ne_true (hobject.symm.trans hvariable)

def Formula.existsAtom? : Formula → Option (List Entity × Application)
  | .thereIs vs (.atom a) => some (vs, a)
  | _ => none

theorem Formula.existsAtom?_eq_some {f : Formula} {vs : List Entity} {a : Application} :
    f.existsAtom? = some (vs, a) ↔ f = .thereIs vs (.atom a) := by
  unfold existsAtom?
  split <;> simp_all

namespace PlanStep

variable {config : Config} {text : String} {d : Domain} {p : Problem} {s : PlanStep}

/-- A step that is instantiated is the action of its operator for its objects. Its precondition
means what that of the operator means for the objects, unless a quantifier captures one of them. -/
theorem satisfied_instantiate (hd : (Domain.read config text).result = .ok d) {a : Action}
    (h : s.instantiate d p = .ok a) :
    ∃ o, d.operator? s.name = some o ∧ a.name = o.name ∧ a.arguments.length = o.arity ∧
      (¬o.precondition.Captures (.ofParameters o.parameters a.arguments) →
        ∀ (I : Interpretation Ω V) (state : State Ω V) (ν ρ : Environment Ω),
          ρ.Assigns ν o.parameters a.arguments →
            (a.precondition.Satisfied I state ν ↔ o.precondition.Satisfied I state ρ)) := by
  obtain ⟨o, objects, hbinds, rfl⟩ := (instantiate_eq_ok (Domain.nodup_of_read hd)).1 h
  obtain ⟨scope, hsound⟩ := Domain.sound_of_read hd hbinds.mem_operators
  refine ⟨o, hbinds.operator, rfl, hbinds.length, fun hcaptures I state ν ρ hassigns => ?_⟩
  exact hsound.satisfied_action hbinds.length hcaptures hassigns

def parting : String :=
  "(define (domain d) (:predicates (on ?x ?y)) (:action a :parameters (?x) " ++
    ":precondition (forall (?b) (or (= ?x ?b) (on ?x ?b)))))"

theorem satisfied_instantiate_parting :
    ∃ d, (Domain.read .default parting).result = .ok d ∧
      ∃ p, (Problem.read d "(define (problem q) (:domain d) (:objects b))").result = .ok p ∧
        ∃ a, instantiate ⟨"a", ["b"], none, none, none⟩ d p = .ok a ∧
          ∃ o, d.operator? "a" = some o ∧
            ∀ (I : Interpretation Entity Number) (state : State Entity Number)
              (ρ : Environment Entity), ρ.Assigns id o.parameters a.arguments →
                (a.precondition.Satisfied I state id ↔ o.precondition.Satisfied I state ρ) := by
  obtain ⟨d, hd, p, hp, a, ha, hcaptures⟩ : ∃ d, (Domain.read .default parting).result = .ok d ∧
      ∃ p, (Problem.read d "(define (problem q) (:domain d) (:objects b))").result = .ok p ∧
        ∃ a, instantiate ⟨"a", ["b"], none, none, none⟩ d p = .ok a ∧
          ∀ o ∈ d.operator? "a",
            ¬o.precondition.Captures (.ofParameters o.parameters a.arguments) := by
    decide +kernel
  obtain ⟨o, ho, -, -, hmeaning⟩ := satisfied_instantiate hd ha
  exact ⟨d, hd, p, hp, a, ha, o, ho,
    fun I state ρ => hmeaning (hcaptures o ho) I state id ρ⟩

def clearing : String :=
  "(define (domain d) (:predicates (on ?x ?y)) (:action clear :parameters (?x) " ++
    ":precondition (exists (b) (on ?x b))))"

/-- The precondition asks whether the object is on anything; once the quantifier has captured the
object, it asks whether anything is on itself. -/
theorem not_satisfied_instantiate_clearing :
    ∃ d, (Domain.read .default clearing).result = .ok d ∧
      ∃ p, (Problem.read d "(define (problem q) (:domain d) (:objects a b))").result = .ok p ∧
        ∃ a, instantiate ⟨"clear", ["b"], none, none, none⟩ d p = .ok a ∧
          ∃ o, d.operator? "clear" = some o ∧
            ∃ (I : Interpretation Entity Number) (state : State Entity Number)
              (ρ : Environment Entity), (∀ type e, I.contains type e ↔
                e ∈ p.objects ++ d.constants ∧ d.types.isConsistent e.type type = true) ∧
              ρ.Assigns id o.parameters a.arguments ∧ o.precondition.Satisfied I state ρ ∧
                ¬a.precondition.Satisfied I state id := by
  obtain ⟨d, hd, p, hp, a, ha, o, ho, hparameters, harguments, hobject, hbefore, hafter⟩ :
      ∃ d, (Domain.read .default clearing).result = .ok d ∧
        ∃ p, (Problem.read d "(define (problem q) (:domain d) (:objects a b))").result = .ok p ∧
          ∃ a, instantiate ⟨"clear", ["b"], none, none, none⟩ d p = .ok a ∧
            ∃ o ∈ d.operator? "clear", o.parameters = [⟨"?x", "default"⟩] ∧
              a.arguments = [⟨"b", "default"⟩] ∧ ⟨"a", "default"⟩ ∈ p.objects ++ d.constants ∧
              o.precondition.existsAtom? = some ([⟨"b", "default"⟩],
                ⟨"on", [⟨"?x", "default"⟩, ⟨"b", "default"⟩]⟩) ∧
              a.precondition.existsAtom? = some ([⟨"b", "default"⟩],
                ⟨"on", [⟨"b", "default"⟩, ⟨"b", "default"⟩]⟩) := by
    decide +kernel
  let I : Interpretation Entity Number :=
    { contains := fun type e => e ∈ p.objects ++ d.constants ∧
        d.types.isConsistent e.type type = true
      number := id
      compute := fun _ x _ => x
      relate := fun _ x y => x = y
      during := fun _ _ => True }
  -- the object `b` is on `a`, and nothing else is on anything
  let state : State Entity Number :=
    { holds := fun _ es => es = [⟨"b", "default"⟩, ⟨"a", "default"⟩]
      value := fun _ _ => .zero }
  have hnodup := Domain.nodup_of_read hd o (List.mem_of_find?_eq_some ho)
  obtain ⟨ρ, hρ⟩ : ∃ ρ : Environment Entity, ρ.Assigns id o.parameters a.arguments :=
    Environment.exists_assigns id hnodup
  refine ⟨d, hd, p, hp, a, ha, o, ho, I, state, ρ, fun _ _ => Iff.rfl, hρ, ?_, ?_⟩
  · have hparameter : ρ ⟨"?x", "default"⟩ = ⟨"b", "default"⟩ :=
      hρ.parameter (⟨"?x", "default"⟩, ⟨"b", "default"⟩) (by simp [hparameters, harguments])
    rw [Formula.existsAtom?_eq_some.1 hbefore, Formula.Satisfied]
    refine ⟨fun _ => ⟨"a", "default"⟩, ?_, ?_⟩
    · simpa [I, Types.isConsistent] using hobject
    · simp [Formula.Satisfied, state, Environment.rebind, hparameter]
  · rw [Formula.existsAtom?_eq_some.1 hafter, Formula.Satisfied]
    rintro ⟨choice, -, h⟩
    obtain ⟨hb, ha⟩ : choice "b" = ⟨"b", "default"⟩ ∧ choice "b" = ⟨"a", "default"⟩ := by
      simpa [Formula.Satisfied, state, Environment.rebind] using h
    rw [hb] at ha
    simp at ha

end PlanStep

end Pddl
