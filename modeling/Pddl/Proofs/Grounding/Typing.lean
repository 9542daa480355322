import Pddl.Problem.Reader
import Pddl.Proofs.Grounding.Binding

namespace Pddl

variable {config : Config} {text : String} {d : Domain} {p : Problem}

theorem Application.fits_iff {a : Application} {signatures : List Signature} {types : Types} :
    a.Fits signatures types ↔
      ∃ s, Signature.find? a.head signatures = some s ∧ s.apply types a.arguments = .ok a := by
  unfold Fits
  refine exists_congr fun s => and_congr_right fun hs => ?_
  rw [Signature.apply_eq_ok, Signature.name_of_find? hs]
  simp

/-- Whether the type of each object is a subtype of the type of its parameter. -/
def Operator.Takes (o : Operator) (types : Types) (objects : List Entity) : Prop :=
  ∀ x ∈ o.parameters.zip objects, types.isSubtype x.2.type x.1.type = true

instance {o : Operator} {types : Types} {objects : List Entity} :
    Decidable (o.Takes types objects) :=
  inferInstanceAs (Decidable (∀ x ∈ o.parameters.zip objects, _))

theorem Operator.Sound.isSubtype_apply {o : Operator} {symbols : Symbols} {scope : Scope}
    {objects : List Entity} (h : o.Sound symbols scope)
    (hlength : objects.length = o.parameters.length) (htakes : o.Takes symbols.types objects)
    (e : Entity) (he : scope.Sees e) :
    symbols.types.isSubtype ((Bindings.ofParameters o.parameters objects).apply e).type e.type := by
  rcases h.apply_cases hlength he with ⟨x, hx, happly⟩ | ⟨-, happly⟩
  · rw [happly]
    exact htakes _ hx
  · rw [happly]
    exact Types.isSubtype_refl _

theorem Domain.predicate?_of_find? {name : String} {q : Signature}
    (h : (d.predicates.find? fun q => q.name = name && d.isActionPredicate q.name) = some q) :
    d.predicate? name = some q := by
  obtain ⟨rfl, haction⟩ : q.name = name ∧ d.isActionPredicate q.name = true := by
    simpa using List.find?_some h
  have hsame : (fun r : Signature => decide (r.name = q.name) && d.isActionPredicate r.name) =
      fun r => decide (r.name = q.name) := by
    funext r
    by_cases hr : r.name = q.name <;> simp [hr, haction]
  rwa [hsame] at h

theorem Formula.node_of_mem_topLevelAtoms {f : Formula} {a : Application}
    (h : a ∈ f.topLevelAtoms) : ⟨[], .atom a⟩ ∈ f.nodes [] := by
  obtain ⟨g, hg, hatom⟩ := List.mem_filterMap.1 h
  cases g with
  | atom b =>
    obtain rfl : b = a := by simpa [atom?] using hatom
    exact nodes_of_mem_conjuncts hg [] (by simp [nodes])
  | _ => simp [atom?] at hatom

theorem Operator.Sound.checked_of_mem_topLevelAtoms {o : Operator} {symbols : Symbols}
    {scope : Scope} (h : o.Sound symbols scope) {a : Application}
    (ha : a ∈ o.precondition.topLevelAtoms) :
    a.Checked symbols.predicates symbols.types scope := by
  have hnode := h.precondition _ (Formula.node_of_mem_topLevelAtoms ha)
  have hatom : a ∈ (Node.mk [] (.atom a)).atoms := List.mem_singleton_self a
  refine ⟨hnode.atoms a hatom, fun e he => ?_⟩
  have hargument := Node.mem_arguments_of_mem (List.mem_append_left _ hatom) he
  exact (hnode.arguments e hargument).resolve_right List.not_mem_nil

namespace PlanStep

variable {s : PlanStep}

theorem ground_eq_ok {a : Application} :
    s.ground d p = .ok a ↔
      (d.operatorsAsActions = true ∧ ∃ q objects,
        (d.predicates.find? fun q => q.name = s.name && d.isActionPredicate q.name) = some q ∧
          p.resolveAll d s.parameters = .ok objects ∧ q.apply d.types objects = .ok a) ∨
      (d.operatorsAsActions = false ∧ ∃ o objects c, s.Binds d p o objects ∧
        d.actionAtom? o = some c ∧ c.substitute (.ofParameters o.parameters objects) = a) := by
  unfold ground
  cases hactions : d.operatorsAsActions with
  | true =>
    simp only [if_true, true_and, Bool.true_eq_false, false_and, or_false, applyActionPredicate]
    cases hfind : d.predicates.find? fun q => q.name = s.name && d.isActionPredicate q.name with
    | none => simp
    | some q => simp [Pddl.bind_eq_ok]
  | false =>
    simp only [Bool.false_eq_true, if_false, false_and, true_and, false_or, Pddl.bind_eq_ok,
      Prod.exists, bind_eq_ok]
    constructor
    · rintro ⟨o, b, ⟨objects, hbinds, rfl⟩, h⟩
      split at h
      · rename_i c hc
        exact ⟨o, objects, c, hbinds, hc, pure_eq_ok.1 h⟩
      · simp at h
    · rintro ⟨o, objects, c, hbinds, hc, rfl⟩
      exact ⟨o, _, ⟨objects, hbinds, rfl⟩, by simp [hc, pure_eq_ok]⟩

/-- A ground atom has a declared predicate and as many arguments as that has parameters. Their types
fit if the operators are the action predicates, and otherwise if the objects of the step have
subtypes of the types of its operator's parameters. -/
theorem apply_of_ground (hd : (Domain.read config text).result = .ok d) {a : Application}
    (h : s.ground d p = .ok a) :
    ∃ q, d.predicate? a.head = some q ∧ q.arity = a.arguments.length ∧
      ((d.operatorsAsActions = true ∨
          ∃ o objects, s.Binds d p o objects ∧ o.Takes d.types objects) →
        q.apply d.types a.arguments = .ok a) := by
  rcases ground_eq_ok.1 h with ⟨-, q, objects, hfind, -, happly⟩ |
    ⟨hactions, o, objects, c, hbinds, hatom, rfl⟩
  · obtain ⟨harity, -, rfl⟩ := Signature.apply_eq_ok.1 happly
    obtain ⟨hname, -⟩ : q.name = s.name ∧ d.isActionPredicate q.name = true := by
      simpa using List.find?_some hfind
    exact ⟨q, hname ▸ Domain.predicate?_of_find? hfind, harity, fun _ => happly⟩
  · obtain ⟨scope, hsound⟩ := Domain.sound_of_read hd hbinds.mem_operators
    have hchecked := hsound.checked_of_mem_topLevelAtoms (List.mem_of_find?_eq_some hatom)
    -- substituting changes neither the head nor how many arguments there are
    have ⟨q, hq, harity, _⟩ := hchecked.fits
    refine ⟨q, hq, by simpa [Application.substitute] using harity, fun htakes => ?_⟩
    obtain ⟨o', objects', hbinds', htakes⟩ := htakes.resolve_left (by simp [hactions])
    obtain ⟨rfl, rfl⟩ := hbinds.unique hbinds'
    have hsub := hsound.isSubtype_apply hbinds.length htakes
    have hground := hchecked.fits.substitute (Domain.fromText_of_read hd)
      fun e he => hsub e (hchecked.sees e he)
    obtain ⟨r, hr, happly⟩ := Application.fits_iff.1 hground
    obtain rfl : q = r := Option.some.inj (hq.symm.trans hr)
    exact happly

def acting (types : String) : String :=
  "(define (domain d) (:types " ++ types ++ ") (:predicates (act ?x - t)) (:actions act) " ++
    "(:action a :parameters (?x - t) :precondition (act ?x)))"

def owning (type : String) : String :=
  "(define (problem q) (:domain d) (:objects o - " ++ type ++ "))"

theorem apply_of_ground_subtype : ∃ d, (Domain.read .default (acting "u - t")).result = .ok d ∧
    ∃ p, (Problem.read d (owning "u")).result = .ok p ∧
      ∃ a, ground ⟨"a", ["o"], none, none, none⟩ d p = .ok a ∧
        ∃ q, d.predicate? a.head = some q ∧ q.apply d.types a.arguments = .ok a := by
  obtain ⟨d, hd, p, hp, a, ha, objects, hresolves, o, ho, hlength, htakes⟩ :
      ∃ d, (Domain.read .default (acting "u - t")).result = .ok d ∧
        ∃ p, (Problem.read d (owning "u")).result = .ok p ∧
          ∃ a, ground ⟨"a", ["o"], none, none, none⟩ d p = .ok a ∧
            ∃ objects, p.resolveAll d ["o"] = .ok objects ∧
              ∃ o ∈ d.operator? "a", objects.length = o.parameters.length ∧
                o.Takes d.types objects := by
    decide +kernel
  obtain ⟨q, hq, -, happly⟩ := apply_of_ground hd ha
  refine ⟨d, hd, p, hp, a, ha, q, hq, happly (Or.inr ⟨o, objects, ?_, htakes⟩)⟩
  exact ⟨ho, hresolves, hlength⟩

/-- An object of another type than the parameter: the operator is grounded all the same, to an atom
that its predicate refuses. -/
theorem not_apply_of_ground_otherType : ∃ d, (Domain.read .default (acting "t u")).result = .ok d ∧
    ∃ p, (Problem.read d (owning "u")).result = .ok p ∧
      ∃ a, ground ⟨"a", ["o"], none, none, none⟩ d p = .ok a ∧
        ∃ q ∈ d.predicate? a.head, q.apply d.types a.arguments =
          .error (.type (.argument "o" "act" "u" "t")) := by
  decide +kernel

/-- If the objects of a step have subtypes of the types of its operator's parameters, all atoms and
function terms of the instantiated operator fit their declarations, below quantifiers and conditions
and in numeric values too. -/
theorem fits_of_instantiate (hd : (Domain.read config text).result = .ok d) {a : Action}
    (h : s.instantiate d p = .ok a) :
    ∃ o, d.operator? s.name = some o ∧ a.arguments.length = o.arity ∧
      (o.Takes d.types a.arguments →
        a.precondition.Fits d.toSymbols ∧ a.effect.Fits d.toSymbols) := by
  obtain ⟨o, objects, hbinds, rfl⟩ := (instantiate_eq_ok (Domain.nodup_of_read hd)).1 h
  obtain ⟨scope, hsound⟩ := Domain.sound_of_read hd hbinds.mem_operators
  refine ⟨o, hbinds.operator, hbinds.length, fun htakes => ?_⟩
  have htypes := Domain.fromText_of_read hd
  have hsub := hsound.isSubtype_apply hbinds.length htakes
  exact ⟨Formula.fits_substitute hsound.precondition htypes hsub,
    Formula.fits_substitute hsound.effect htypes hsub⟩

def filling : String :=
  "(define (domain d) (:types c - v) (:predicates (p ?x - v)) (:functions (f ?x - v)) " ++
    "(:action a :parameters (?x - v) :effect (forall (?y - c) " ++
      "(when (p ?x) (increase (f ?x) (f ?y))))))"

theorem fits_of_instantiate_subtype : ∃ d, (Domain.read .default filling).result = .ok d ∧
    ∃ p, (Problem.read d (owning "c")).result = .ok p ∧
      ∃ a, instantiate ⟨"a", ["o"], none, none, none⟩ d p = .ok a ∧
        a.precondition.Fits d.toSymbols ∧ a.effect.Fits d.toSymbols := by
  obtain ⟨d, hd, p, hp, a, ha, htakes⟩ : ∃ d, (Domain.read .default filling).result = .ok d ∧
      ∃ p, (Problem.read d (owning "c")).result = .ok p ∧
        ∃ a, instantiate ⟨"a", ["o"], none, none, none⟩ d p = .ok a ∧
          ∀ o ∈ d.operator? "a", o.Takes d.types a.arguments := by
    decide +kernel
  obtain ⟨o, ho, -, hfits⟩ := fits_of_instantiate hd ha
  exact ⟨d, hd, p, hp, a, ha, hfits (htakes o ho)⟩

end PlanStep

end Pddl
