import Pddl.Domain.Determinize
import Pddl.Proofs.Domain.Reader
import Pddl.Proofs.Formula.Determinize

namespace Pddl

namespace Formula

/-- Whether effects of the kind are returned as they are, although effects stand below them. -/
def isSealed : Formula → Bool
  | .delete _ => true
  | .or _ => true
  | .thereIs _ _ => true
  | _ => false

instance : DecidablePred Keeps := fun f =>
  decidable_of_iff (∃ g ∈ f.determinize, g.isProbabilistic = true) isProbabilistic_determinize

end Formula

namespace Symbols

variable {symbols : Symbols} {scope : Scope}

theorem Denotes.isProbabilistic_eq_false {mode : Mode} {s : Shape} {f : Formula}
    (h : symbols.Denotes scope mode s f) (hmode : mode = .condition) :
    f.isProbabilistic = false := by
  induction h with
  | delete | when | assign | probabilistic => simp at hmode
  | trivial | atom | comparison | equal | different => rfl
  | not _ ih | timed _ _ ih | forAll _ _ _ _ ih | thereIs _ _ _ _ ih => exact ih hmode
  | unbound _ _ _ ih => exact ih hmode
  | imply _ _ ihleft ihright => simp [Formula.isProbabilistic, ihleft, ihright]
  | and hlen _ ih | or hlen _ ih =>
    rw [Formula.isProbabilistic, Formula.anyProbabilistic_eq_any, List.any_eq_false]
    intro f hf
    obtain ⟨s, hs⟩ := exists_zip_of_mem hlen hf
    simp [ih s f hs hmode]

theorem Denotes.exists_sealed_of_keeps {mode : Mode} {s : Shape} {f : Formula}
    (h : symbols.Denotes scope mode s f) (hmode : mode = .effect) (hkeeps : f.Keeps)
    (enclosing : List Entity) :
    ∃ n ∈ f.nodes enclosing, n.formula.isSealed = true ∧ n.formula.isProbabilistic = true := by
  induction h generalizing enclosing with
  | not | imply => simp at hmode
  | trivial => simp [Formula.trivial, Formula.keeps_and] at hkeeps
  | atom | assign | comparison | equal | different =>
    rw [Formula.keeps_of_not_opened rfl] at hkeeps
    simp [Formula.isProbabilistic] at hkeeps
  | delete | or | thereIs =>
    -- such an effect is itself the node, whatever is below it
    rw [Formula.keeps_of_not_opened rfl] at hkeeps
    rw [Formula.nodes]
    exact ⟨_, List.mem_cons_self, rfl, hkeeps⟩
  | unbound _ _ _ ih => exact ih hmode hkeeps enclosing
  | forAll _ _ _ _ ih =>
    rw [Formula.keeps_forAll] at hkeeps
    obtain ⟨n, hn, hsealed⟩ := ih hmode hkeeps _
    exact ⟨n, List.mem_cons_of_mem _ hn, hsealed⟩
  | timed _ _ ih =>
    rw [Formula.keeps_timed] at hkeeps
    obtain ⟨n, hn, hsealed⟩ := ih hmode hkeeps enclosing
    exact ⟨n, List.mem_cons_of_mem _ hn, hsealed⟩
  | when hcondition _ _ ih =>
    rw [Formula.keeps_when, hcondition.isProbabilistic_eq_false rfl] at hkeeps
    obtain ⟨n, hn, hsealed⟩ := ih hmode (hkeeps.resolve_left Bool.false_ne_true) enclosing
    exact ⟨n, List.mem_cons_of_mem _ (List.mem_append_right _ hn), hsealed⟩
  | and hlen _ ih =>
    obtain ⟨f, hf, hkeeps⟩ := Formula.keeps_and.1 hkeeps
    obtain ⟨s, hs⟩ := exists_zip_of_mem hlen hf
    obtain ⟨n, hn, hsealed⟩ := ih s f hs hmode hkeeps enclosing
    rw [Formula.nodes, Formula.nodesAll_eq_flatMap]
    exact ⟨n, List.mem_cons_of_mem _ (List.mem_flatMap.2 ⟨f, hf, hn⟩), hsealed⟩
  | probabilistic hlen _ _ _ ih =>
    obtain ⟨o, ho, hkeeps⟩ := Formula.keeps_probabilistic.1 hkeeps
    have hmem := Formula.mem_of_mostLikely ho
    obtain ⟨a, hao⟩ := exists_zip_of_mem hlen hmem
    obtain ⟨n, hn, hsealed⟩ := ih a o hao rfl hkeeps enclosing
    rw [Formula.nodes, Formula.nodesOutcomes_eq_flatMap]
    exact ⟨n, List.mem_cons_of_mem _ (List.mem_flatMap.2 ⟨o, hmem, hn⟩), hsealed⟩

end Symbols

namespace Domain

/-- In a domain that is read, determinizing can fail to remove a probabilistic effect only below a
deletion, a disjunction or an existential quantifier. -/
theorem exists_sealed_of_keeps {config : Config} {text : String} {d : Domain}
    (h : (Domain.read config text).result = .ok d) {o : Operator} (ho : o ∈ d.operators)
    (hkeeps : o.effect.Keeps) :
    ∃ n ∈ o.effect.nodes [], n.formula.isSealed = true ∧ n.formula.isProbabilistic = true := by
  obtain ⟨t, ht, hbuild⟩ := draft_of_read h
  obtain ⟨all, actions, -, -, rfl⟩ := Draft.build_eq_ok.1 hbuild
  obtain ⟨scope, hdescribes⟩ := ht.operators o ho
  obtain ⟨s, -, heffect⟩ := hdescribes.effect
  exact heffect.exists_sealed_of_keeps rfl hkeeps []

end Domain

def Domain.IsDeterministic (d : Domain) : Prop :=
  ∀ o ∈ d.operators, ∀ n ∈ o.effect.nodes [], ¬n.IsProbabilistic

theorem Operator.isProbabilistic_determinize {o : Operator} :
    o.determinize.effect.isProbabilistic = true ↔ o.effect.Keeps :=
  Formula.isProbabilistic_getD.trans Formula.isProbabilistic_determinize

namespace Domain

theorem isDeterministic_iff {d : Domain} :
    d.IsDeterministic ↔ d.operators.any (·.effect.isProbabilistic) = false := by
  simp only [IsDeterministic, List.any_eq_false, Formula.isProbabilistic_iff [], not_exists,
    not_and]

theorem isDeterministic_withOperators {d : Domain} {os : List Operator} :
    (d.withOperators os).IsDeterministic ↔ (d.withOperators os).isProbabilistic = false :=
  isDeterministic_iff

/-- A probabilistic domain is determinized. What comes out is free of probability exactly when no
effect keeps any; then it is not probabilistic and cannot be determinized again. -/
theorem determinize_clears {d : Domain} (h : d.isProbabilistic = true) :
    ∃ e, d.determinize = .ok e ∧
      (e.IsDeterministic ↔ ∀ o ∈ d.operators, ¬o.effect.Keeps) ∧
      (e.IsDeterministic →
        e.isProbabilistic = false ∧ e.determinize = .error (.notProbabilistic d.name)) := by
  refine ⟨d.withOperators (d.operators.map Operator.determinize), if_pos h, ?_, fun hclear => ?_⟩
  · rw [isDeterministic_iff]
    show (d.operators.map Operator.determinize).any _ = false ↔ _
    rw [List.any_eq_false, List.forall_mem_map]
    simp only [Operator.isProbabilistic_determinize]
  · have hflag := isDeterministic_withOperators.1 hclear
    exact ⟨hflag, if_neg (by simp [hflag])⟩

def flipping : String :=
  "(define (domain d) (:predicates (p)) (:action a :effect (and " ++
    "(when (p) (probabilistic 0.2 (p))) (probabilistic 0.7 (probabilistic 0.6 (p))))))"

theorem determinize_clears_flipping : ∃ d, (Domain.read .default flipping).result = .ok d ∧
    d.isProbabilistic = true ∧ ∃ e, d.determinize = .ok e ∧ e.IsDeterministic ∧
      e.isProbabilistic = false ∧ e.determinize = .error (.notProbabilistic d.name) := by
  obtain ⟨d, hd, hprobabilistic, hkeeps⟩ : ∃ d, (Domain.read .default flipping).result = .ok d ∧
      d.isProbabilistic = true ∧ ∀ o ∈ d.operators, ¬o.effect.Keeps := by
    decide +kernel
  obtain ⟨e, he, hclear, hdone⟩ := determinize_clears hprobabilistic
  have hnone := hclear.2 hkeeps
  exact ⟨d, hd, hprobabilistic, e, he, hnone, hdone hnone⟩

def forgetting : String :=
  "(define (domain coin) (:predicates (heads)) " ++
    "(:action flip :effect (not (probabilistic 0.9 (heads)))))"

/-- The deletion keeps its probability, however often the domain is determinized. -/
theorem determinize_keeps_forgetting : ∃ d, (Domain.read .default forgetting).result = .ok d ∧
    d.isProbabilistic = true ∧ ∃ e, d.determinize = .ok e ∧ ¬e.IsDeterministic ∧
      e.isProbabilistic = true ∧ ∃ f, e.determinize = .ok f ∧ f.isProbabilistic = true := by
  obtain ⟨d, hd, hprobabilistic, e, he, hleft, hagain⟩ :
      ∃ d, (Domain.read .default forgetting).result = .ok d ∧ d.isProbabilistic = true ∧
        ∃ e, d.determinize = .ok e ∧ e.operators.any (·.effect.isProbabilistic) = true ∧
          e.isProbabilistic = true ∧ ∃ f, e.determinize = .ok f ∧ f.isProbabilistic = true := by
    decide +kernel
  refine ⟨d, hd, hprobabilistic, e, he, fun hclear => ?_, hagain⟩
  rw [isDeterministic_iff, hleft] at hclear
  simp at hclear

end Domain

end Pddl
