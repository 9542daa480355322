import Pddl.Proofs.Domain.Determinize

namespace Pddl

inductive Qualifier where
  | forAll (binders : List Entity)
  | when (condition : Formula)
  | timed (time : Time)

/-- An effect that is not made up of others, with all that it stands below, the outermost first. -/
structure ElementaryEffect where
  path : List Qualifier
  effect : Formula

def ElementaryEffect.below (q : Qualifier) (e : ElementaryEffect) : ElementaryEffect :=
  { e with path := q :: e.path }

namespace Formula

mutual

/-- The elementary effects from left to right. Those of a probabilistic effect are those of its most
likely outcome; it has none if no change is the most likely. -/
def elementary : Formula → List ElementaryEffect
  | .and fs => elementaryAll fs
  | .forAll vs f => f.elementary.map (.below (.forAll vs))
  | .when c f => f.elementary.map (.below (.when c))
  | .timed t f => f.elementary.map (.below (.timed t))
  | .probabilistic os =>
    match mostLikely (elementaryOutcomes os) with
    | some (_, es) => es
    | none => []
  | f => [⟨[], f⟩]

def elementaryAll : List Formula → List ElementaryEffect
  | [] => []
  | f :: fs => f.elementary ++ elementaryAll fs

def elementaryOutcomes : List (Number × Formula) → List (Number × List ElementaryEffect)
  | [] => []
  | (p, f) :: rest => (p, f.elementary) :: elementaryOutcomes rest

end

theorem elementaryAll_eq_flatMap (fs : List Formula) :
    elementaryAll fs = fs.flatMap elementary := by
  induction fs with
  | nil => rfl
  | cons f fs ih => rw [elementaryAll, ih, List.flatMap_cons]

theorem elementaryOutcomes_eq_map (os : List (Number × Formula)) :
    elementaryOutcomes os = os.map fun o => (o.1, o.2.elementary) := by
  induction os with
  | nil => rfl
  | cons o os ih => rw [elementaryOutcomes, ih, List.map_cons]

@[simp] theorem elementary_trivial : trivial.elementary = [] := rfl

theorem elementary_and (fs : List Formula) :
    (Formula.and fs).elementary = fs.flatMap elementary :=
  elementaryAll_eq_flatMap fs

theorem elementary_probabilistic (os : List (Number × Formula)) :
    (Formula.probabilistic os).elementary = (mostLikely os).elim [] fun o => o.2.elementary := by
  rw [elementary, elementaryOutcomes_eq_map, mostLikely_map]
  cases mostLikely os <;> rfl

/-- What determinizing drops has no elementary effects; what it leaves has the same as before. -/
theorem elementary_determinize (f : Formula) :
    (f.determinize.getD trivial).elementary = f.elementary := by
  induction f using Formula.induct with
  | probabilistic os ih =>
    rw [determinize_probabilistic, elementary_probabilistic]
    cases h : mostLikely os with
    | none => rfl
    | some o => exact ih o (mem_of_mostLikely h)
  | and fs ih =>
    -- a term of which nothing is left contributes nothing to the conjunction either way
    have hterm : ∀ f ∈ fs, f.determinize.toList.flatMap elementary = f.elementary := by
      intro f hf
      rw [← ih f hf]
      cases f.determinize <;> simp
    rw [determinize, Option.getD_some, elementary_and, elementary_and, determinizeAll_eq_filterMap,
      List.filterMap_eq_flatMap_toList, List.flatMap_assoc]
    exact List.flatMap_congr hterm
  | forAll vs f ih | when c f _ ih => simp only [determinize, Option.getD_some, elementary, ih]
  | timed t f ih =>
    rw [determinize, elementary, ← ih]
    cases f.determinize <;> rfl
  | _ => rfl

end Formula

/-- Whether `q` differs from `o` in its effect alone, has the same elementary effects, and is free
of probability unless the effect of `o` keeps some. -/
structure Operator.Settles (q o : Operator) : Prop where
  name : q.name = o.name
  parameters : q.parameters = o.parameters
  precondition : q.precondition = o.precondition
  duration : q.duration = o.duration
  effects : q.effect.elementary = o.effect.elementary
  probability : q.effect.isProbabilistic = true ↔ o.effect.Keeps

theorem Operator.settles_determinize (o : Operator) : o.determinize.Settles o :=
  ⟨rfl, rfl, rfl, rfl, o.effect.elementary_determinize, isProbabilistic_determinize⟩

namespace Domain

/-- In a determinized domain every operator, in its place, has the elementary effects that it had
before, and everything but the effects stays. -/
theorem determinize_settles {d : Domain} (h : d.isProbabilistic = true) :
    ∃ e, d.determinize = .ok e ∧ List.Forall₂ Operator.Settles e.operators d.operators ∧
      { e with operators := d.operators, isProbabilistic := d.isProbabilistic } = d := by
  refine ⟨d.withOperators (d.operators.map Operator.determinize), if_pos h, ?_, rfl⟩
  show List.Forall₂ Operator.Settles (d.operators.map Operator.determinize) d.operators
  rw [List.forall₂_map_left_iff, List.forall₂_same]
  exact fun o _ => o.settles_determinize

def scattering : String :=
  "(define (domain d) (:predicates (p ?x) (q ?x)) (:action a :effect (forall (?x) (and " ++
    "(when (p ?x) (probabilistic 0.3 (q ?x) 0.6 (not (q ?x)))) (probabilistic 0.2 (p ?x))))))"

theorem determinize_settles_scattering :
    ∃ d, (Domain.read .default scattering).result = .ok d ∧ d.isProbabilistic = true ∧
      ∃ e, d.determinize = .ok e ∧ List.Forall₂ Operator.Settles e.operators d.operators ∧
        { e with operators := d.operators, isProbabilistic := d.isProbabilistic } = d := by
  obtain ⟨d, hd, hprobabilistic⟩ : ∃ d, (Domain.read .default scattering).result = .ok d ∧
      d.isProbabilistic = true := by
    decide +kernel
  exact ⟨d, hd, hprobabilistic, determinize_settles hprobabilistic⟩

end Domain

end Pddl
