import Pddl.Proofs.Grounding.Typing
import Pddl.Proofs.Problem.Soundness

namespace Pddl

variable {config : Config} {text problemText : String} {d : Domain} {p : Problem}

theorem Problem.knows_of_candidates {name : String} {e : Entity} (h : p.candidates d name = [e]) :
    p.Knows d e := by
  have hmem : e ∈ p.candidates d name := by simp [h]
  rcases List.mem_append.1 (Sorted.mem_of_mem_ofList hmem) with hobject | hconstant
  · exact Or.inl (List.mem_filter.1 hobject).1
  · exact Or.inr (List.mem_filter.1 hconstant).1

theorem Problem.knows_of_resolveAll {names : List String} {es : List Entity}
    (h : p.resolveAll d names = .ok es) : ∀ e ∈ es, p.Knows d e := by
  intro e he
  obtain ⟨name, -, hname⟩ := exists_mem_of_forall₂ (Problem.resolveAll_eq_ok.1 h) he
  exact knows_of_candidates hname

theorem Operator.Sound.mem_of_sees {o : Operator} {symbols : Symbols} {scope : Scope}
    (h : o.Sound symbols scope) {e : Entity} (he : scope.Sees e) :
    e ∈ o.parameters ∨ e ∈ symbols.constants := by
  obtain ⟨rfl, -, -⟩ := Scope.bind_eq_ok.1 h.bind
  refine (Scope.sees_append he).imp List.mem_reverse.1 fun hconstant => ?_
  exact List.mem_reverse.1 hconstant.2.mem

theorem Operator.Sound.knows_apply {o : Operator} {scope : Scope} (h : o.Sound d.toSymbols scope)
    {objects : List Entity} (hlength : objects.length = o.parameters.length)
    (hobjects : ∀ x ∈ objects, p.Knows d x) {e : Entity} (he : scope.Sees e) :
    p.Knows d ((Bindings.ofParameters o.parameters objects).apply e) := by
  rcases h.apply_cases hlength he with ⟨x, hx, happly⟩ | ⟨hother, happly⟩
  · rw [happly]
    exact hobjects x (List.of_mem_zip hx).2
  · rw [happly]
    have hparameter : e ∉ o.parameters := fun hmem => hother e hmem rfl
    exact Or.inr ((h.mem_of_sees he).resolve_left hparameter)

theorem PlanStep.knows_of_ground {s : PlanStep} {a : Application}
    (hd : (Domain.read config text).result = .ok d) (h : s.ground d p = .ok a) :
    ∀ e ∈ a.arguments, p.Knows d e := by
  rcases ground_eq_ok.1 h with ⟨-, q, objects, -, hresolve, happly⟩ |
    ⟨-, o, objects, c, hbinds, hatom, rfl⟩
  · obtain ⟨-, -, rfl⟩ := Signature.apply_eq_ok.1 happly
    exact Problem.knows_of_resolveAll hresolve
  · obtain ⟨scope, hsound⟩ := Domain.sound_of_read hd hbinds.mem_operators
    have hchecked := hsound.checked_of_mem_topLevelAtoms (List.mem_of_find?_eq_some hatom)
    have hobjects := Problem.knows_of_resolveAll hbinds.resolves
    intro e he
    obtain ⟨x, hx, rfl⟩ := List.mem_map.1 he
    exact hsound.knows_apply hbinds.length hobjects (hchecked.sees x hx)

/-- What is said of the objects at the start and by plan steps: the atoms and function terms of the
initial state, and the atoms that steps stand for. -/
inductive Problem.Yields (p : Problem) (d : Domain) : Application → Prop where
  | fact {f : Fact} (hf : f ∈ p.init) : Yields p d f.term
  | step {s : PlanStep} {a : Application} (hs : s.ground d p = .ok a) : Yields p d a

theorem Application.isGround_eq_false {a : Application} :
    a.isGround = false ↔ ∃ e ∈ a.arguments, e.isVariable = true := by
  simp [isGround]

namespace Problem

theorem Yields.knows (hd : (Domain.read config text).result = .ok d)
    (hp : (Problem.read d problemText).result = .ok p) {a : Application} (h : p.Yields d a) :
    ∀ e ∈ a.arguments, p.Knows d e := by
  cases h with
  | fact hf => exact knows_of_mem_init hp hf
  | step hs => exact PlanStep.knows_of_ground hd hs

/-- Parameters and quantified variables leave nothing behind: only an object or a constant whose
name begins with a question mark keeps an atom or a function term from being ground. -/
theorem isGround_eq_false_iff_of_yields (hd : (Domain.read config text).result = .ok d)
    (hp : (Problem.read d problemText).result = .ok p) {a : Application} (h : p.Yields d a) :
    a.isGround = false ↔ ∃ e ∈ a.arguments, p.Knows d e ∧ e.isVariable = true := by
  rw [Application.isGround_eq_false]
  constructor
  · rintro ⟨e, he, hvariable⟩
    exact ⟨e, he, h.knows hd hp e he, hvariable⟩
  · rintro ⟨e, he, -, hvariable⟩
    exact ⟨e, he, hvariable⟩

def asking : String :=
  "(define (domain d) (:predicates (p ?x) (act ?x)) (:actions act) " ++
    "(:action a :parameters (?x) :precondition (act ?x)))"

def answering (name : String) : String :=
  "(define (problem q) (:domain d) (:objects " ++ name ++ ") (:init (p " ++ name ++ ")))"

theorem isGround_eq_false_iff_of_yields_variable :
    ∃ d, (Domain.read .default asking).result = .ok d ∧
      ∃ p, (Problem.read d (answering "?o")).result = .ok p ∧
        ∃ a, PlanStep.ground ⟨"a", ["?o"], none, none, none⟩ d p = .ok a ∧
          a.isGround = false ∧ ∃ e ∈ a.arguments, p.Knows d e ∧ e.isVariable = true := by
  obtain ⟨d, hd, p, hp, a, ha, hground⟩ : ∃ d, (Domain.read .default asking).result = .ok d ∧
      ∃ p, (Problem.read d (answering "?o")).result = .ok p ∧
        ∃ a, PlanStep.ground ⟨"a", ["?o"], none, none, none⟩ d p = .ok a ∧
          a.isGround = false := by
    decide +kernel
  have hvariable := (isGround_eq_false_iff_of_yields hd hp (.step ha)).1 hground
  exact ⟨d, hd, p, hp, a, ha, hground, hvariable⟩

/-- The initial state and the step then both speak of a variable. -/
theorem not_isGround_variable :
    ∃ d, (Domain.read .default asking).result = .ok d ∧
      ∃ p, (Problem.read d (answering "?o")).result = .ok p ∧
        (∃ f ∈ p.init, f.term.isGround = false) ∧
          ∃ a, PlanStep.ground ⟨"a", ["?o"], none, none, none⟩ d p = .ok a ∧
            a.isGround = false := by
  decide +kernel

end Problem

end Pddl
