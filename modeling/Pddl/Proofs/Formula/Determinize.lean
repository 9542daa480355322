import Mathlib.Logic.Basic
import Pddl.Formula.Determinize
import Pddl.Proofs.Formula.Nodes
import Pddl.Proofs.Formula.Outcomes

namespace Pddl

def Node.IsProbabilistic (n : Node) : Prop := ∃ outcomes, n.formula = .probabilistic outcomes

namespace Formula

theorem anyProbabilistic_eq_any (fs : List Formula) :
    anyProbabilistic fs = fs.any isProbabilistic := by
  induction fs with
  | nil => rfl
  | cons f fs ih => rw [anyProbabilistic, ih, List.any_cons]

theorem isProbabilistic_eq (f : Formula) (enclosing : List Entity) :
    f.isProbabilistic = true ↔ (Node.mk enclosing f).IsProbabilistic ∨
      ∃ m ∈ f.parts enclosing, m.formula.isProbabilistic = true := by
  cases f <;> simp [isProbabilistic, anyProbabilistic_eq_any, Node.IsProbabilistic, parts]

theorem isProbabilistic_iff {f : Formula} (enclosing : List Entity) :
    f.isProbabilistic = true ↔ ∃ n ∈ f.nodes enclosing, n.IsProbabilistic := by
  induction f using induct_parts generalizing enclosing with
  | h f ih =>
    rw [isProbabilistic_eq f enclosing, nodes_eq]
    simp only [List.mem_cons, List.mem_flatMap, exists_eq_or_imp]
    refine or_congr_right ⟨?_, ?_⟩
    · rintro ⟨m, hm, hprobabilistic⟩
      obtain ⟨n, hn, hkind⟩ := (ih enclosing m hm m.enclosing).1 hprobabilistic
      exact ⟨n, ⟨m, hm, hn⟩, hkind⟩
    · rintro ⟨n, ⟨m, hm, hn⟩, hkind⟩
      exact ⟨m, hm, (ih enclosing m hm m.enclosing).2 ⟨n, hn, hkind⟩⟩

theorem determinizeAll_eq_filterMap (fs : List Formula) :
    determinizeAll fs = fs.filterMap determinize := by
  induction fs with
  | nil => rfl
  | cons f fs ih => cases h : f.determinize <;> simp [determinizeAll, h, ih]

theorem determinize_probabilistic (os : List (Number × Formula)) :
    (Formula.probabilistic os).determinize = (mostLikely os).bind fun o => o.2.determinize := by
  have hmap : determinizeOutcomes os = os.map fun o => (o.1, o.2.determinize) :=
    determinizeOutcomes_eq_map os
  rw [determinize, hmap, mostLikely_map]
  cases mostLikely os with
  | none => rfl
  | some o => rcases h : o.2.determinize <;> simp [h]

/-- Whether determinizing looks for probabilistic effects inside the formula. -/
def isOpened : Formula → Bool
  | .probabilistic _ => true
  | .and _ => true
  | .forAll _ _ => true
  | .when _ _ => true
  | .timed _ _ => true
  | _ => false

theorem determinize_of_not_opened {f : Formula} (h : f.isOpened = false) :
    f.determinize = some f := by
  cases f <;> first | rfl | simp [isOpened] at h

/-- The formulas in which determinizing leaves a probabilistic effect: on the way down through most
likely outcomes and what else it opens, it meets one in a formula that it does not open or in a
condition. -/
inductive Keeps : Formula → Prop where
  | unopened {f : Formula} (hf : f.isOpened = false) (h : f.isProbabilistic = true) : Keeps f
  | outcome {os : List (Number × Formula)} {o : Number × Formula} (ho : mostLikely os = some o)
      (h : Keeps o.2) : Keeps (.probabilistic os)
  | term {fs : List Formula} {f : Formula} (hf : f ∈ fs) (h : Keeps f) : Keeps (.and fs)
  | forAll {vs : List Entity} {f : Formula} (h : Keeps f) : Keeps (.forAll vs f)
  | condition {c e : Formula} (h : c.isProbabilistic = true) : Keeps (.when c e)
  | consequence {c e : Formula} (h : Keeps e) : Keeps (.when c e)
  | timed {t : Time} {f : Formula} (h : Keeps f) : Keeps (.timed t f)

theorem keeps_of_not_opened {f : Formula} (hf : f.isOpened = false) :
    f.Keeps ↔ f.isProbabilistic = true := by
  refine ⟨fun h => ?_, .unopened hf⟩
  cases h with
  | unopened _ h => exact h
  | _ => simp [isOpened] at hf

theorem keeps_probabilistic {os : List (Number × Formula)} :
    (Formula.probabilistic os).Keeps ↔ ∃ o, mostLikely os = some o ∧ o.2.Keeps := by
  refine ⟨fun h => ?_, fun ⟨o, ho, h⟩ => .outcome ho h⟩
  cases h with
  | unopened hf => simp [isOpened] at hf
  | outcome ho h => exact ⟨_, ho, h⟩

theorem keeps_and {fs : List Formula} : (Formula.and fs).Keeps ↔ ∃ f ∈ fs, f.Keeps := by
  refine ⟨fun h => ?_, fun ⟨f, hf, h⟩ => .term hf h⟩
  cases h with
  | unopened hf => simp [isOpened] at hf
  | term hf h => exact ⟨_, hf, h⟩

theorem keeps_forAll {vs : List Entity} {f : Formula} : (Formula.forAll vs f).Keeps ↔ f.Keeps := by
  refine ⟨fun h => ?_, .forAll⟩
  cases h with
  | unopened hf => simp [isOpened] at hf
  | forAll h => exact h

theorem keeps_when {c e : Formula} :
    (Formula.when c e).Keeps ↔ c.isProbabilistic = true ∨ e.Keeps := by
  refine ⟨fun h => ?_, fun h => h.elim .condition .consequence⟩
  cases h with
  | unopened hf => simp [isOpened] at hf
  | condition h => exact Or.inl h
  | consequence h => exact Or.inr h

theorem keeps_timed {t : Time} {f : Formula} : (Formula.timed t f).Keeps ↔ f.Keeps := by
  refine ⟨fun h => ?_, .timed⟩
  cases h with
  | unopened hf => simp [isOpened] at hf
  | timed h => exact h

theorem isProbabilistic_getD {f : Option Formula} :
    (f.getD trivial).isProbabilistic = true ↔ ∃ g, f = some g ∧ g.isProbabilistic = true := by
  cases f <;> simp [trivial, isProbabilistic, anyProbabilistic]

/-- Determinizing leaves a probabilistic effect exactly in the formulas that keep one. -/
theorem isProbabilistic_determinize {f : Formula} :
    (∃ g, f.determinize = some g ∧ g.isProbabilistic = true) ↔ f.Keeps := by
  induction f using Formula.induct with
  | probabilistic os ih =>
    simp only [determinize_probabilistic, Option.bind_eq_some_iff, keeps_probabilistic]
    constructor
    · rintro ⟨g, ⟨o, ho, hg⟩, h⟩
      exact ⟨o, ho, (ih o (mem_of_mostLikely ho)).1 ⟨g, hg, h⟩⟩
    · rintro ⟨o, ho, h⟩
      obtain ⟨g, hg, h⟩ := (ih o (mem_of_mostLikely ho)).2 h
      exact ⟨g, ⟨o, ho, hg⟩, h⟩
  | and fs ih =>
    rw [keeps_and]
    simp only [determinize, Option.some.injEq, exists_eq_left', isProbabilistic,
      anyProbabilistic_eq_any, determinizeAll_eq_filterMap, List.any_eq_true, List.mem_filterMap]
    constructor
    · rintro ⟨g, ⟨f, hf, hg⟩, h⟩
      exact ⟨f, hf, (ih f hf).1 ⟨g, hg, h⟩⟩
    · rintro ⟨f, hf, h⟩
      obtain ⟨g, hg, h⟩ := (ih f hf).2 h
      exact ⟨g, ⟨f, hf, hg⟩, h⟩
  | forAll vs f ih =>
    simp [determinize, isProbabilistic, isProbabilistic_getD, ih, keeps_forAll]
  | when c e _ ih =>
    simp [determinize, isProbabilistic, isProbabilistic_getD, ih, keeps_when]
  | timed t f ih =>
    rw [keeps_timed, ← ih]
    cases h : f.determinize <;> simp [determinize, isProbabilistic, h]
  | _ =>
    -- every other formula is returned as it is
    rw [determinize_of_not_opened rfl, keeps_of_not_opened rfl]
    simp

end Formula

end Pddl
