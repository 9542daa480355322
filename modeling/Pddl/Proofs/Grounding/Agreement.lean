import Pddl.Proofs.Domain.Actions
import Pddl.Proofs.Grounding.Typing

namespace Pddl

variable {d : Domain} {p : Problem}

theorem Domain.Obtained.nodup (h : d.Obtained) :
    ∀ o ∈ d.operators, (o.parameters.map Entity.name).Nodup := by
  induction h with
  | read h => exact nodup_of_read h
  | determinized _ h ih =>
    obtain ⟨-, rfl⟩ := determinize_eq_ok.1 h
    exact List.forall_mem_map.2 ih

/-- Only a type can keep a signature from as many arguments as it has parameters. -/
theorem Signature.apply_of_length {s : Signature} {types : Types} {es : List Entity}
    (h : s.arity = es.length) :
    s.apply types es = .ok ⟨s.name, es⟩ ∨ ∃ fault, s.apply types es = .error (.type fault) := by
  rw [apply, if_neg (not_not.2 h)]
  cases s.firstMismatch types es with
  | none => exact Or.inl rfl
  | some x => exact Or.inr ⟨_, rfl⟩

namespace Formula

theorem atom?_substitute (b : Bindings) (f : Formula) :
    (f.substitute b).atom? = f.atom?.map (Application.substitute b) := by
  cases f <;> rfl

theorem conjuncts_substitute (b : Bindings) (f : Formula) :
    (f.substitute b).conjuncts = f.conjuncts.map (substitute b) := by
  cases f with
  | and terms => rw [substitute, conjuncts, conjuncts, substituteAll_eq_map]
  | _ => rfl

theorem topLevelAtoms_substitute (b : Bindings) (f : Formula) :
    (f.substitute b).topLevelAtoms = f.topLevelAtoms.map (Application.substitute b) := by
  rw [topLevelAtoms, topLevelAtoms, conjuncts_substitute, List.filterMap_map, List.map_filterMap]
  exact List.filterMap_congr fun g _ => atom?_substitute b g

end Formula

theorem Domain.find?_topLevelAtoms_action (o : Operator) (objects : List Entity) :
    ((o.action objects).precondition.topLevelAtoms.find? fun a => d.isActionPredicate a.head) =
      (d.actionAtom? o).map (Application.substitute (.ofParameters o.parameters objects)) := by
  rw [Operator.action, Formula.topLevelAtoms_substitute, List.find?_map, actionAtom?]
  rfl

namespace PlanStep

variable {s : PlanStep}

/-- Where operators double as actions, a step is grounded by applying the signature of its operator
to the objects. -/
theorem ground_eq_apply {declared : List Signature} (hdoubles : d.Doubles declared)
    (hactions : d.operatorsAsActions = true) {o : Operator} {objects : List Entity}
    (h : s.Binds d p o objects) : s.ground d p = o.signature.apply d.types objects := by
  have hfind := hdoubles.find?_action s.name
  rw [h.operator, Option.map_some] at hfind
  simp only [ground, hactions, if_true, applyActionPredicate, hfind, h.resolves, ok_bind]

theorem binds_of_ground {declared : List Signature} (hdoubles : d.Doubles declared)
    (hactions : d.operatorsAsActions = true) {a : Application} (h : s.ground d p = .ok a) :
    ∃ o, s.Binds d p o a.arguments ∧ o.name = a.head := by
  rcases ground_eq_ok.1 h with ⟨-, q, objects, hfind, hresolves, happly⟩ | ⟨hfalse, -⟩
  · rw [hdoubles.find?_action, Option.map_eq_some_iff] at hfind
    obtain ⟨o, ho, rfl⟩ := hfind
    obtain ⟨harity, -, rfl⟩ := Signature.apply_eq_ok.1 happly
    refine ⟨o, ⟨ho, hresolves, ?_⟩, rfl⟩
    simpa [Signature.arity, Operator.signature] using harity.symm
  · exact absurd (hactions.symm.trans hfalse) (by simp)

theorem ground_eq_error {e : Error} (hactions : d.operatorsAsActions = false)
    (h : s.instantiate d p = .error e) : s.ground d p = .error e := by
  rw [instantiate] at h
  rw [ground, if_neg (by simp [hactions])]
  cases hbind : s.bind d p with
  | error e' =>
    rw [hbind] at h
    exact congrArg Except.error (Except.error.inj h)
  | ok x =>
    rw [hbind] at h
    simp [ok_bind, pure, Except.pure] at h

/-- Grounding a step and instantiating it agree. Where operators double as actions, what is grounded
is instantiated under the same name for the same arguments, and what is instantiated is grounded
unless an object has an unfitting type. Otherwise a step has the first conjunct of its instantiated
precondition over an action predicate, and the errors of binding it are the same. -/
theorem ground_agrees (hd : d.Obtained) :
    (d.operatorsAsActions = true →
      (∀ a, s.ground d p = .ok a →
        ∃ b, s.instantiate d p = .ok b ∧ b.name = a.head ∧ b.arguments = a.arguments) ∧
      (∀ b, s.instantiate d p = .ok b →
        (∃ a, s.ground d p = .ok a) ∨ ∃ fault, s.ground d p = .error (.type fault)) ∧
      ∀ e, s.instantiate d p = .error e → ∃ e', s.ground d p = .error e') ∧
    (d.operatorsAsActions = false →
      (∀ a, s.ground d p = .ok a ↔ ∃ b, s.instantiate d p = .ok b ∧
        (b.precondition.topLevelAtoms.find? fun c => d.isActionPredicate c.head) = some a) ∧
      ∀ e, s.instantiate d p = .error e → s.ground d p = .error e) := by
  constructor
  · intro hactions
    obtain ⟨declared, hdoubles⟩ := hd.doubles hactions
    have hinstantiates : ∀ a, s.ground d p = .ok a →
        ∃ b, s.instantiate d p = .ok b ∧ b.name = a.head ∧ b.arguments = a.arguments := by
      intro a ha
      obtain ⟨o, hbinds, hname⟩ := binds_of_ground hdoubles hactions ha
      exact ⟨_, (instantiate_eq_ok hd.nodup).2 ⟨o, _, hbinds, rfl⟩, hname, rfl⟩
    refine ⟨hinstantiates, fun b hb => ?_, fun e he => ?_⟩
    -- the step has as many objects as the operator has parameters, only their types may not fit
    · obtain ⟨o, objects, hbinds, -⟩ := (instantiate_eq_ok hd.nodup).1 hb
      rw [ground_eq_apply hdoubles hactions hbinds]
      have harity : o.signature.arity = objects.length := by
        simpa [Signature.arity, Operator.signature] using hbinds.length.symm
      exact (Signature.apply_of_length harity).imp_left fun happly => ⟨_, happly⟩
    · cases hground : s.ground d p with
      | error e' => exact ⟨e', rfl⟩
      | ok a =>
        obtain ⟨b, hb, -⟩ := hinstantiates a hground
        simp [he] at hb
  -- both bind the step first, and the atom is chosen by heads, which substituting keeps
  · intro hactions
    refine ⟨fun a => ?_, fun e he => ground_eq_error hactions he⟩
    simp only [ground_eq_ok, hactions, Bool.false_eq_true, false_and, false_or, true_and,
      instantiate_eq_ok hd.nodup]
    constructor
    · rintro ⟨o, objects, c, hbinds, hc, rfl⟩
      exact ⟨_, ⟨o, objects, hbinds, rfl⟩, by rw [Domain.find?_topLevelAtoms_action, hc]; rfl⟩
    · rintro ⟨b, ⟨o, objects, hbinds, rfl⟩, hfind⟩
      rw [Domain.find?_topLevelAtoms_action, Option.map_eq_some_iff] at hfind
      obtain ⟨c, hc, rfl⟩ := hfind
      exact ⟨o, objects, c, hbinds, hc, rfl⟩

def tossing (actions : String) : String :=
  "(define (domain d) (:predicates (held ?c))" ++ actions ++
    "(:action toss :parameters (?c) :precondition (held ?c) " ++
      ":effect (probabilistic 1 (held ?c))))"

theorem ground_agrees_tossing :
    (∃ d, (Domain.read ⟨true, false, .fastDownward⟩ (tossing "")).result = .ok d ∧
      ∃ e, d.determinize = .ok e ∧ e.operatorsAsActions = true ∧
        ∃ p, (Problem.read e "(define (problem q) (:domain d) (:objects o))").result = .ok p ∧
          ∃ a, ground ⟨"toss", ["o"], none, none, none⟩ e p = .ok a ∧
            ∃ b, instantiate ⟨"toss", ["o"], none, none, none⟩ e p = .ok b ∧ b.name = a.head ∧
              b.arguments = a.arguments) ∧
    ∃ d, (Domain.read .default (tossing "(:actions held)")).result = .ok d ∧
      ∃ e, d.determinize = .ok e ∧ e.operatorsAsActions = false ∧
        ∃ p, (Problem.read e "(define (problem q) (:domain d) (:objects o))").result = .ok p ∧
          ∃ a, ground ⟨"toss", ["o"], none, none, none⟩ e p = .ok a ∧
            ∃ b, instantiate ⟨"toss", ["o"], none, none, none⟩ e p = .ok b ∧
              (b.precondition.topLevelAtoms.find? fun c => e.isActionPredicate c.head) =
                some a := by
  constructor
  · obtain ⟨d, hd, e, he, hactions, p, hp, a, ha⟩ :
        ∃ d, (Domain.read ⟨true, false, .fastDownward⟩ (tossing "")).result = .ok d ∧
          ∃ e, d.determinize = .ok e ∧ e.operatorsAsActions = true ∧
            ∃ p, (Problem.read e "(define (problem q) (:domain d) (:objects o))").result = .ok p ∧
              ∃ a, ground ⟨"toss", ["o"], none, none, none⟩ e p = .ok a ∧ True := by
      decide +kernel
    have hagrees := ((ground_agrees (.determinized (.read hd) he)).1 hactions).1 a ha.1
    exact ⟨d, hd, e, he, hactions, p, hp, a, ha.1, hagrees⟩
  · obtain ⟨d, hd, e, he, hactions, p, hp, a, ha⟩ :
        ∃ d, (Domain.read .default (tossing "(:actions held)")).result = .ok d ∧
          ∃ e, d.determinize = .ok e ∧ e.operatorsAsActions = false ∧
            ∃ p, (Problem.read e "(define (problem q) (:domain d) (:objects o))").result = .ok p ∧
              ∃ a, ground ⟨"toss", ["o"], none, none, none⟩ e p = .ok a ∧ True := by
      decide +kernel
    have hagrees := (((ground_agrees (.determinized (.read hd) he)).2 hactions).1 a).1 ha.1
    exact ⟨d, hd, e, he, hactions, p, hp, a, ha.1, hagrees⟩

end PlanStep

end Pddl
