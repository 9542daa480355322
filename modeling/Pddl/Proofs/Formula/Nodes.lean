import Pddl.Formula.Basic

namespace Pddl

def Numeric.terms : Numeric → List Application
  | .number _ => []
  | .function t => [t]
  | .binary _ l r => l.terms ++ r.terms

theorem Numeric.terms_foldl (op : Arithmetic) (xs : List Numeric) (x : Numeric) :
    (xs.foldl (.binary op) x).terms = x.terms ++ xs.flatMap terms := by
  induction xs generalizing x with
  | nil => simp
  | cons y xs ih => simp [ih, terms]

def Numeric.numbers : Numeric → List Number
  | .number v => [v]
  | .function _ => []
  | .binary _ l r => l.numbers ++ r.numbers

theorem Numeric.numbers_foldl (op : Arithmetic) (xs : List Numeric) (x : Numeric) :
    (xs.foldl (.binary op) x).numbers = x.numbers ++ xs.flatMap numbers := by
  induction xs generalizing x with
  | nil => simp
  | cons y xs ih => simp [ih, numbers]

/-- A formula inside another one, with the variables of the quantifiers around it. -/
structure Node where
  enclosing : List Entity
  formula : Formula

namespace Node

def atoms (n : Node) : List Application :=
  match n.formula with
  | .atom a => [a]
  | _ => []

def terms (n : Node) : List Application :=
  match n.formula with
  | .assign _ t v => t :: v.terms
  | .comparison _ t v => t :: v.terms
  | _ => []

def arguments (n : Node) : List Entity :=
  match n.formula with
  | .equal a b => [a, b]
  | .different a b => [a, b]
  | _ => (n.atoms ++ n.terms).flatMap Application.arguments

def numbers (n : Node) : List Number :=
  match n.formula with
  | .assign _ _ v => v.numbers
  | .comparison _ _ v => v.numbers
  | .probabilistic outcomes => outcomes.map Prod.fst
  | _ => []

/-- The variables that the node itself binds. -/
def binders (n : Node) : List Entity :=
  match n.formula with
  | .forAll vs _ => vs
  | .thereIs vs _ => vs
  | _ => []

end Node

namespace Formula

mutual

/-- The formula and everything inside it, below quantifiers of the variables `enclosing`. -/
def nodes (enclosing : List Entity) : Formula → List Node
  | .not body => ⟨enclosing, .not body⟩ :: nodes enclosing body
  | .delete body => ⟨enclosing, .delete body⟩ :: nodes enclosing body
  | .timed time body => ⟨enclosing, .timed time body⟩ :: nodes enclosing body
  | .and terms => ⟨enclosing, .and terms⟩ :: nodesAll enclosing terms
  | .or terms => ⟨enclosing, .or terms⟩ :: nodesAll enclosing terms
  | .imply l r => ⟨enclosing, .imply l r⟩ :: (nodes enclosing l ++ nodes enclosing r)
  | .when c e => ⟨enclosing, .when c e⟩ :: (nodes enclosing c ++ nodes enclosing e)
  | .forAll vs body => ⟨enclosing, .forAll vs body⟩ :: nodes (vs ++ enclosing) body
  | .thereIs vs body => ⟨enclosing, .thereIs vs body⟩ :: nodes (vs ++ enclosing) body
  | .probabilistic outcomes =>
    ⟨enclosing, .probabilistic outcomes⟩ :: nodesOutcomes enclosing outcomes
  | .atom a => [⟨enclosing, .atom a⟩]
  | .assign u t v => [⟨enclosing, .assign u t v⟩]
  | .comparison r t v => [⟨enclosing, .comparison r t v⟩]
  | .equal a b => [⟨enclosing, .equal a b⟩]
  | .different a b => [⟨enclosing, .different a b⟩]

def nodesAll (enclosing : List Entity) : List Formula → List Node
  | [] => []
  | f :: fs => nodes enclosing f ++ nodesAll enclosing fs

def nodesOutcomes (enclosing : List Entity) : List (Number × Formula) → List Node
  | [] => []
  | (_, f) :: rest => nodes enclosing f ++ nodesOutcomes enclosing rest

end

theorem nodesAll_eq_flatMap (enclosing : List Entity) (fs : List Formula) :
    nodesAll enclosing fs = fs.flatMap (nodes enclosing) := by
  induction fs with
  | nil => simp [nodesAll]
  | cons f fs ih => simp [nodesAll, ih]

theorem nodesOutcomes_eq_flatMap (enclosing : List Entity) (os : List (Number × Formula)) :
    nodesOutcomes enclosing os = os.flatMap fun o => nodes enclosing o.2 := by
  induction os with
  | nil => simp [nodesOutcomes]
  | cons o os ih => obtain ⟨p, f⟩ := o; simp [nodesOutcomes, ih]

/-- Induction over formulas, with the hypothesis for all members of a list of formulas. -/
theorem induct {P : Formula → Prop}
    (atom : ∀ a, P (.atom a)) (not : ∀ f, P f → P (.not f)) (delete : ∀ f, P f → P (.delete f))
    (and : ∀ fs, (∀ f ∈ fs, P f) → P (.and fs)) (or : ∀ fs, (∀ f ∈ fs, P f) → P (.or fs))
    (imply : ∀ l r, P l → P r → P (.imply l r)) (forAll : ∀ vs f, P f → P (.forAll vs f))
    (thereIs : ∀ vs f, P f → P (.thereIs vs f)) (when : ∀ c e, P c → P e → P (.when c e))
    (assign : ∀ u t v, P (.assign u t v))
    (probabilistic : ∀ os : List (Number × Formula), (∀ o ∈ os, P o.2) → P (.probabilistic os))
    (comparison : ∀ r t v, P (.comparison r t v)) (equal : ∀ a b, P (.equal a b))
    (different : ∀ a b, P (.different a b)) (timed : ∀ t f, P f → P (.timed t f)) : ∀ f, P f :=
  @Formula.rec P (fun fs => ∀ f ∈ fs, P f) (fun os => ∀ o ∈ os, P o.2) (fun o => P o.2)
    atom not delete and or imply forAll thereIs when assign probabilistic comparison equal different
    timed (by simp) (fun _ _ hf hfs => List.forall_mem_cons.2 ⟨hf, hfs⟩) (by simp)
    (fun _ _ ho hos => List.forall_mem_cons.2 ⟨ho, hos⟩) (fun _ _ hf => hf)

def parts (enclosing : List Entity) : Formula → List Node
  | .not f => [⟨enclosing, f⟩]
  | .delete f => [⟨enclosing, f⟩]
  | .timed _ f => [⟨enclosing, f⟩]
  | .and fs => fs.map (Node.mk enclosing)
  | .or fs => fs.map (Node.mk enclosing)
  | .imply l r => [⟨enclosing, l⟩, ⟨enclosing, r⟩]
  | .when c e => [⟨enclosing, c⟩, ⟨enclosing, e⟩]
  | .forAll vs f => [⟨vs ++ enclosing, f⟩]
  | .thereIs vs f => [⟨vs ++ enclosing, f⟩]
  | .probabilistic os => os.map fun o => ⟨enclosing, o.2⟩
  | _ => []

theorem nodes_eq (f : Formula) (enclosing : List Entity) :
    f.nodes enclosing =
      ⟨enclosing, f⟩ :: (f.parts enclosing).flatMap fun m => m.formula.nodes m.enclosing := by
  cases f <;>
    simp [nodes, parts, nodesAll_eq_flatMap, nodesOutcomes_eq_flatMap, List.flatMap_map]

/-- Induction where all constructors are alike. -/
theorem induct_parts {P : Formula → Prop}
    (h : ∀ f, (∀ enclosing, ∀ m ∈ parts enclosing f, P m.formula) → P f) (f : Formula) : P f := by
  induction f using induct with
  | atom | assign | comparison | equal | different =>
    exact h _ fun _ _ hm => absurd hm List.not_mem_nil
  | not f ih | delete f ih | timed t f ih | forAll vs f ih | thereIs vs f ih =>
    apply h
    simpa [parts] using ih
  | imply l r ihl ihr | when l r ihl ihr =>
    apply h
    simpa [parts] using ⟨ihl, ihr⟩
  | and fs ih | or fs ih | probabilistic fs ih => exact h _ fun _ => List.forall_mem_map.2 ih

theorem enclosing_of_mem_parts {f : Formula} {enclosing : List Entity} {m : Node}
    (hm : m ∈ f.parts enclosing) : m.enclosing = (Node.mk enclosing f).binders ++ enclosing := by
  cases f with
  | not | delete | timed | forAll | thereIs =>
    obtain rfl := List.mem_singleton.1 hm
    rfl
  | imply | when =>
    simp only [parts, List.mem_cons, List.not_mem_nil, or_false] at hm
    rcases hm with rfl | rfl <;> rfl
  | and | or | probabilistic =>
    obtain ⟨_, -, rfl⟩ := List.mem_map.1 hm
    rfl
  | _ => exact absurd hm List.not_mem_nil

theorem mem_enclosing {f : Formula} {enclosing : List Entity} {n : Node}
    (hn : n ∈ f.nodes enclosing) {v : Entity} (hv : v ∈ n.enclosing) :
    v ∈ enclosing ∨ ∃ m ∈ f.nodes enclosing, v ∈ m.binders := by
  induction f using induct_parts generalizing enclosing with
  | h f ih =>
    rw [nodes_eq, List.mem_cons, List.mem_flatMap] at hn
    rcases hn with rfl | ⟨m, hm, hn⟩
    · exact Or.inl hv
    · rcases ih enclosing m hm hn with hmem | ⟨k, hk, hbinder⟩
      · rw [enclosing_of_mem_parts hm, List.mem_append] at hmem
        refine hmem.symm.imp_right fun hbinder => ⟨⟨enclosing, f⟩, ?_, hbinder⟩
        rw [nodes_eq]
        exact List.mem_cons_self
      · refine Or.inr ⟨k, ?_, hbinder⟩
        rw [nodes_eq]
        exact List.mem_cons_of_mem _ (List.mem_flatMap.2 ⟨m, hm, hk⟩)

def numbers (f : Formula) : List Number := (f.nodes []).flatMap Node.numbers

end Formula

end Pddl
