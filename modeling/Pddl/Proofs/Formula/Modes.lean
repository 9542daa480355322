import Pddl.Proofs.Formula.Grammar
import Pddl.Proofs.Formula.Nodes
import Pddl.Proofs.Number.Order
import Pddl.Proofs.Number.Sum

namespace Pddl

/-- Whether a formula may stand in the mode, whatever its parts are. -/
def Mode.admits (mode : Mode) : Formula → Bool
  | .not _ => mode = .condition
  | .imply _ _ => mode = .condition
  | .delete _ => mode = .effect
  | .when _ _ => mode = .effect
  | .assign _ _ _ => mode = .effect
  | .probabilistic _ => mode = .effect
  | _ => true

namespace Formula

mutual

/-- The formula and everything inside it, each with its mode when the whole stands in `mode`. Only the
condition of a conditional effect has a mode of its own. -/
def places (mode : Mode) : Formula → List (Mode × Formula)
  | .not body => (mode, .not body) :: places mode body
  | .delete body => (mode, .delete body) :: places mode body
  | .timed time body => (mode, .timed time body) :: places mode body
  | .and terms => (mode, .and terms) :: placesAll mode terms
  | .or terms => (mode, .or terms) :: placesAll mode terms
  | .imply l r => (mode, .imply l r) :: (places mode l ++ places mode r)
  | .when c e => (mode, .when c e) :: (places .condition c ++ places mode e)
  | .forAll vs body => (mode, .forAll vs body) :: places mode body
  | .thereIs vs body => (mode, .thereIs vs body) :: places mode body
  | .probabilistic outcomes => (mode, .probabilistic outcomes) :: placesOutcomes mode outcomes
  | .atom a => [(mode, .atom a)]
  | .assign u t v => [(mode, .assign u t v)]
  | .comparison r t v => [(mode, .comparison r t v)]
  | .equal a b => [(mode, .equal a b)]
  | .different a b => [(mode, .different a b)]

def placesAll (mode : Mode) : List Formula → List (Mode × Formula)
  | [] => []
  | f :: fs => places mode f ++ placesAll mode fs

def placesOutcomes (mode : Mode) : List (Number × Formula) → List (Mode × Formula)
  | [] => []
  | (_, f) :: rest => places mode f ++ placesOutcomes mode rest

end

theorem placesAll_eq_flatMap (mode : Mode) (fs : List Formula) :
    placesAll mode fs = fs.flatMap (places mode) := by
  induction fs with
  | nil => simp [placesAll]
  | cons f fs ih => simp [placesAll, ih]

theorem placesOutcomes_eq_flatMap (mode : Mode) (os : List (Number × Formula)) :
    placesOutcomes mode os = os.flatMap fun o => places mode o.2 := by
  induction os with
  | nil => simp [placesOutcomes]
  | cons o os ih => obtain ⟨p, f⟩ := o; simp [placesOutcomes, ih]

def partModes (mode : Mode) : Formula → List (Mode × Formula)
  | .when c e => [(.condition, c), (mode, e)]
  | f => (f.parts []).map fun n => (mode, n.formula)

theorem places_eq (f : Formula) (mode : Mode) :
    f.places mode = (mode, f) :: (f.partModes mode).flatMap fun p => p.2.places p.1 := by
  cases f <;>
    simp [places, partModes, parts, placesAll_eq_flatMap, placesOutcomes_eq_flatMap,
      List.flatMap_map]

theorem exists_part_of_mem_partModes {f : Formula} {mode : Mode} {p : Mode × Formula}
    (hp : p ∈ f.partModes mode) :
    (∃ n ∈ f.parts [], n.formula = p.2) ∧ (p.1 = mode ∨ p.1 = .condition) := by
  cases f with
  | when c e =>
    simp only [partModes, List.mem_cons, List.not_mem_nil, or_false] at hp
    rcases hp with rfl | rfl <;> simp [parts]
  | _ =>
    obtain ⟨n, hn, rfl⟩ := List.mem_map.1 hp
    exact ⟨⟨n, hn, rfl⟩, Or.inl rfl⟩

theorem map_snd_places (f : Formula) (mode : Mode) (enclosing : List Entity) :
    (f.places mode).map Prod.snd = (f.nodes enclosing).map Node.formula := by
  induction f using induct generalizing mode enclosing with
  | atom | assign | comparison | equal | different => rfl
  | not f ih | delete f ih | timed t f ih => exact congrArg (_ :: ·) (ih mode enclosing)
  | forAll vs f ih | thereIs vs f ih => exact congrArg (_ :: ·) (ih mode (vs ++ enclosing))
  | imply l r ihl ihr =>
    simp only [places, nodes, List.map_cons, List.map_append, ihl mode enclosing, ihr mode enclosing]
  | when c e ihc ihe =>
    simp only [places, nodes, List.map_cons, List.map_append, ihc .condition enclosing,
      ihe mode enclosing]
  | and fs ih | or fs ih =>
    simp only [places, nodes, placesAll_eq_flatMap, nodesAll_eq_flatMap, List.map_cons,
      List.map_flatMap, List.cons.injEq, true_and]
    exact List.flatMap_congr fun f hf => ih f hf mode enclosing
  | probabilistic os ih =>
    simp only [places, nodes, placesOutcomes_eq_flatMap, nodesOutcomes_eq_flatMap, List.map_cons,
      List.map_flatMap, List.cons.injEq, true_and]
    exact List.flatMap_congr fun o ho => ih o ho mode enclosing

theorem exists_place_of_mem_nodes {f : Formula} {enclosing : List Entity} {n : Node}
    (hn : n ∈ f.nodes enclosing) (mode : Mode) : ∃ m, (m, n.formula) ∈ f.places mode := by
  have hmem : n.formula ∈ (f.places mode).map Prod.snd := by
    rw [map_snd_places f mode enclosing]
    exact List.mem_map_of_mem hn
  obtain ⟨⟨m, g⟩, hg, rfl⟩ := List.mem_map.1 hmem
  exact ⟨m, hg⟩

theorem mode_of_mem_places_condition {f : Formula} {p : Mode × Formula}
    (hp : p ∈ f.places .condition) : p.1 = .condition := by
  induction f using induct_parts with
  | h f ih =>
    rw [places_eq, List.mem_cons, List.mem_flatMap] at hp
    rcases hp with rfl | ⟨q, hq, hp⟩
    · rfl
    · obtain ⟨⟨n, hn, hformula⟩, hmode⟩ := exists_part_of_mem_partModes hq
      rw [or_self] at hmode
      rw [hmode, ← hformula] at hp
      exact ih [] n hn hp

theorem mem_places_trans {f : Formula} {mode : Mode} {p q : Mode × Formula}
    (hp : p ∈ f.places mode) (hq : q ∈ p.2.places p.1) : q ∈ f.places mode := by
  induction f using induct_parts generalizing mode with
  | h f ih =>
    rw [places_eq, List.mem_cons, List.mem_flatMap] at hp
    rcases hp with rfl | ⟨r, hr, hp⟩
    · exact hq
    · obtain ⟨⟨n, hn, hformula⟩, -⟩ := exists_part_of_mem_partModes hr
      rw [places_eq]
      rw [← hformula] at hp
      have hmem : q ∈ r.2.places r.1 := hformula ▸ ih [] n hn hp
      exact List.mem_cons_of_mem _ (List.mem_flatMap.2 ⟨r, hr, hmem⟩)

end Formula

/-- What reading checks of a formula itself in either mode. A total is at most one but for rounding, and
the comparison excludes the undefined number. -/
structure Formula.Proper (f : Formula) : Prop where
  bound : ∀ vs body, f = .forAll vs body ∨ f = .thereIs vs body → vs ≠ []
  probable : ∀ outcomes, f = .probabilistic outcomes →
    (∀ o ∈ outcomes, Number.zero.le o.1 = true ∧ o.1.le .one = true) ∧
      (Number.sum (outcomes.map Prod.fst)).le (Number.one.add (.ofDecimal false 1 (-6))) = true

theorem Formula.sum_le_greatestTotal {outcomes : List (Number × Formula)}
    (hprobability : ∀ o ∈ outcomes, o.1.IsProbability)
    (htotal : greatestTotal.lt (totalProbability outcomes) = false) :
    (Number.sum (outcomes.map Prod.fst)).le greatestTotal = true := by
  have hzero : Number.zero.le (Number.sum (outcomes.map Prod.fst)) = true := by
    refine Number.zero_le_sum (List.forall_mem_map.2 fun o ho => ?_)
    exact (Bool.and_eq_true_iff.1 (hprobability o ho)).1
  exact (Number.lt_eq_false_iff (by decide +kernel) (Number.ne_nan_of_le hzero)).1 htotal

namespace Symbols

variable {symbols : Symbols} {scope : Scope} {mode : Mode}

theorem Denotes.admits_places {s : Shape} {f : Formula} (h : symbols.Denotes scope mode s f) :
    ∀ p ∈ f.places mode, p.1.admits p.2 = true ∧ p.2.Proper := by
  induction h with
  | trivial | atom | assign | comparison | equal | different =>
    simp only [Formula.trivial, Formula.places, Formula.placesAll, List.mem_singleton, forall_eq]
    exact ⟨rfl, by simp, by simp⟩
  | not _ ih | delete _ ih | timed _ _ ih =>
    rw [Formula.places, List.forall_mem_cons]
    exact ⟨⟨rfl, by simp, by simp⟩, ih⟩
  | and hlen _ ih | or hlen _ ih =>
    rw [Formula.places, List.forall_mem_cons, Formula.placesAll_eq_flatMap, List.forall_mem_flatMap]
    refine ⟨⟨rfl, by simp, by simp⟩, fun f hf => ?_⟩
    obtain ⟨s, hs⟩ := exists_zip_of_mem hlen hf
    exact ih s f hs
  | imply _ _ ihleft ihright | when _ _ ihleft ihright =>
    rw [Formula.places, List.forall_mem_cons, List.forall_mem_append]
    exact ⟨⟨rfl, by simp, by simp⟩, ihleft, ihright⟩
  | forAll _ hne _ _ ih | thereIs _ hne _ _ ih =>
    rw [Formula.places, List.forall_mem_cons]
    exact ⟨⟨rfl, by simpa using hne, by simp⟩, ih⟩
  | unbound _ _ _ ih => exact ih
  | @probabilistic scope args outcomes hlen hprobability _ htotal ih =>
    have hprobabilities : ∀ o ∈ outcomes, o.1.IsProbability := fun o ho =>
      have ⟨a, hao⟩ := exists_zip_of_mem hlen ho
      (hprobability a o hao).2
    rw [Formula.places, List.forall_mem_cons, Formula.placesOutcomes_eq_flatMap,
      List.forall_mem_flatMap]
    refine ⟨⟨rfl, by simp, ?_⟩, fun o ho => ?_⟩
    · rintro _ ⟨⟩
      exact ⟨fun o ho => Bool.and_eq_true_iff.1 (hprobabilities o ho),
        Formula.sum_le_greatestTotal hprobabilities htotal⟩
    · obtain ⟨a, hao⟩ := exists_zip_of_mem hlen ho
      exact ih a o hao

/-- A formula is read with each part in a mode that admits it. So there are no deletions, conditional,
numeric or probabilistic effects anywhere in what is read as a condition or inside the condition of
a conditional effect, and no negations or implications elsewhere in what is read as an effect. All
quantifiers bind variables, and the probabilities of outcomes are between zero and one and sum up to
at most one but for rounding. -/
theorem readFormula_admits {what : String} {t : Tree} {f : Formula}
    (h : symbols.readFormula what scope mode t = .ok f) :
    (∀ p ∈ f.places mode, p.1.admits p.2 = true) ∧
    (mode = .condition → ∀ n ∈ f.nodes [], Mode.condition.admits n.formula = true) ∧
    (∀ n ∈ f.nodes [], ∀ c e, n.formula = .when c e →
      ∀ m ∈ c.nodes [], Mode.condition.admits m.formula = true) ∧
    ∀ n ∈ f.nodes [], n.formula.Proper := by
  have hplaces := (readFormula_eq_ok.1 h).admits_places
  have hcondition : ∀ g : Formula, (∀ p ∈ g.places .condition, p ∈ f.places mode) →
      ∀ n ∈ g.nodes [], Mode.condition.admits n.formula = true := by
    intro g hg n hn
    obtain ⟨m, hm⟩ := Formula.exists_place_of_mem_nodes hn .condition
    obtain rfl : m = .condition := Formula.mode_of_mem_places_condition hm
    exact (hplaces _ (hg _ hm)).1
  refine ⟨fun p hp => (hplaces p hp).1, ?_, fun n hn c e hwhen => ?_, fun n hn => ?_⟩
  · rintro rfl
    exact hcondition f fun _ hp => hp
  · obtain ⟨m, hm⟩ := Formula.exists_place_of_mem_nodes hn mode
    refine hcondition c fun p hp => Formula.mem_places_trans hm ?_
    rw [hwhen, Formula.places]
    exact List.mem_cons_of_mem _ (List.mem_append_left _ hp)
  · obtain ⟨m, hm⟩ := Formula.exists_place_of_mem_nodes hn mode
    exact (hplaces _ hm).2

def conditional : Tree :=
  (Excerpt.ofString "(when (not (p a)) (forall (?x) (probabilistic 0.5 (not (p ?x)))))").tree

theorem readFormula_admits_when :
    ∃ f, readFormula ⟨.untyped, [⟨"p", ["default"]⟩], [], []⟩ "a formula" [⟨"a", "default"⟩]
        .effect conditional = .ok f ∧ (f.nodes []).length = 7 ∧
      (∀ p ∈ f.places .effect, p.1.admits p.2 = true) ∧
      (∀ n ∈ f.nodes [], ∀ c e, n.formula = .when c e →
        ∀ m ∈ c.nodes [], Mode.condition.admits m.formula = true) ∧
      ∀ n ∈ f.nodes [], n.formula.Proper := by
  obtain ⟨f, hf, hlength⟩ : ∃ f, readFormula ⟨.untyped, [⟨"p", ["default"]⟩], [], []⟩ "a formula"
      [⟨"a", "default"⟩] .effect conditional = .ok f ∧ (f.nodes []).length = 7 := by
    decide +kernel
  obtain ⟨hplaces, -, hwhen, hproper⟩ := readFormula_admits hf
  exact ⟨f, hf, hlength, hplaces, hwhen, hproper⟩

end Symbols

end Pddl
