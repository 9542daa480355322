import Mathlib.Data.List.Basic
import Pddl.Formula.Variables
import Pddl.Proofs.Formula.Nodes
import Pddl.Proofs.Sorted

namespace Pddl

theorem Numeric.variableArguments_eq_flatMap (x : Numeric) :
    x.variableArguments = x.terms.flatMap Application.variableArguments := by
  induction x with
  | number => rfl
  | function t => simp [variableArguments, terms]
  | binary o l r ihl ihr => simp [variableArguments, terms, ihl, ihr]

/-- The variables among the arguments of the node that no quantifier around it binds. -/
def Node.free (n : Node) : List Entity :=
  n.arguments.filter fun e => e.isVariable ∧ ∀ v ∈ n.enclosing, v.name ≠ e.name

theorem Node.mem_free {n : Node} {e : Entity} :
    e ∈ n.free ↔ e.isVariable = true ∧ e ∈ n.arguments ∧ ∀ v ∈ n.enclosing, v.name ≠ e.name := by
  rw [free, List.mem_filter, decide_eq_true_iff, and_left_comm]

namespace Formula

theorem freeOccurrencesAll_eq_flatMap (bound : List String) (fs : List Formula) :
    freeOccurrencesAll bound fs = fs.flatMap (freeOccurrences bound) := by
  induction fs with
  | nil => simp [freeOccurrencesAll]
  | cons f fs ih => simp [freeOccurrencesAll, ih]

theorem freeOccurrencesOutcomes_eq_flatMap (bound : List String) (os : List (Number × Formula)) :
    freeOccurrencesOutcomes bound os = os.flatMap fun o => freeOccurrences bound o.2 := by
  induction os with
  | nil => simp [freeOccurrencesOutcomes]
  | cons o os ih => obtain ⟨p, f⟩ := o; simp [freeOccurrencesOutcomes, ih]

@[simp] theorem freeAmong_nil (bound : List String) : freeAmong bound [] = [] := rfl

theorem freeAmong_append (bound : List String) (es ds : List Entity) :
    freeAmong bound (es ++ ds) = freeAmong bound es ++ freeAmong bound ds :=
  List.filter_append ..

theorem mem_freeAmong {bound : List String} {es : List Entity} {e : Entity} :
    e ∈ freeAmong bound es ↔ e ∈ es ∧ e.isVariable = true ∧ e.name ∉ bound := by
  simp [freeAmong]

theorem freeAmong_filter_isVariable (bound : List String) (es : List Entity) :
    freeAmong bound (es.filter Entity.isVariable) = freeAmong bound es := by
  rw [freeAmong, List.filter_filter, freeAmong]
  congr 1
  funext e
  rw [Bool.and_right_comm, Bool.and_self]

theorem freeAmong_variableArguments (bound : List String) (t : Application) (x : Numeric) :
    freeAmong bound (t.variableArguments ++ x.variableArguments) =
      freeAmong bound ((t :: x.terms).flatMap Application.arguments) := by
  have hvariables : t.variableArguments ++ x.variableArguments =
      ((t :: x.terms).flatMap Application.arguments).filter Entity.isVariable := by
    rw [Numeric.variableArguments_eq_flatMap, List.filter_flatMap, List.flatMap_cons]
    rfl
  rw [hvariables, freeAmong_filter_isVariable]

theorem freeOccurrences_eq (f : Formula) (enclosing : List Entity) :
    f.freeOccurrences (enclosing.map Entity.name) =
      freeAmong (enclosing.map Entity.name) (Node.mk enclosing f).arguments ++
        (f.parts enclosing).flatMap fun m =>
          m.formula.freeOccurrences (m.enclosing.map Entity.name) := by
  cases f <;>
    simp [freeOccurrences, parts, freeOccurrencesAll_eq_flatMap, freeOccurrencesOutcomes_eq_flatMap,
      freeAmong_variableArguments, List.flatMap_map, Node.arguments, Node.atoms, Node.terms]

theorem freeOccurrences_eq_flatMap (f : Formula) (enclosing : List Entity) :
    f.freeOccurrences (enclosing.map Entity.name) = (f.nodes enclosing).flatMap fun n =>
      freeAmong (n.enclosing.map Entity.name) n.arguments := by
  induction f using induct_parts generalizing enclosing with
  | h f ih =>
    rw [freeOccurrences_eq, nodes_eq, List.flatMap_cons, List.flatMap_assoc]
    congr 1
    exact List.flatMap_congr fun m hm => ih enclosing m hm m.enclosing

theorem free_eq_freeAmong (n : Node) :
    n.free = freeAmong (n.enclosing.map Entity.name) n.arguments := by
  refine List.filter_congr fun e _ => ?_
  rw [Bool.eq_iff_iff]
  simp

theorem mem_flatMap_free {f : Formula} {e : Entity} :
    e ∈ (f.nodes []).flatMap Node.free ↔ e ∈ f.freeVariables := by
  rw [List.flatMap_congr fun n _ => free_eq_freeAmong n, ← freeOccurrences_eq_flatMap, List.map_nil,
    freeVariables, Sorted.mem_ofList]

/-- The free variables are those among the arguments of a node that no quantifier around it binds. -/
theorem mem_freeVariables {f : Formula} {e : Entity} :
    e ∈ f.freeVariables ↔ e.isVariable = true ∧
      ∃ n ∈ f.nodes [], e ∈ n.arguments ∧ ∀ v ∈ n.enclosing, v.name ≠ e.name := by
  rw [← mem_flatMap_free, List.mem_flatMap]
  simp only [Node.mem_free]
  constructor
  · rintro ⟨n, hn, hvariable, hargument, hfree⟩
    exact ⟨hvariable, n, hn, hargument, hfree⟩
  · rintro ⟨hvariable, n, hn, hargument, hfree⟩
    exact ⟨n, hn, hvariable, hargument, hfree⟩

end Formula

end Pddl
