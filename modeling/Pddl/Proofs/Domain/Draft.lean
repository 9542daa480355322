import Pddl.Proofs.Domain.Sections
import Pddl.Proofs.Operator.RoundTrip

namespace Pddl

open Text

namespace Operator

@[simp] theorem signature_expanded (o : Operator) : o.expanded.signature = o.signature := rfl

end Operator

namespace Draft

variable {t : Draft} {d : Domain} {predicates : List Signature} {os : List Operator}

theorem withOperatorSignatures_eq_ok {all : List Signature} :
    withOperatorSignatures predicates os = .ok all →
      all = predicates ++ os.map Operator.signature ∧
        ∀ o ∈ os, ∀ p ∈ predicates, p.name ≠ o.name := by
  intro h
  induction os generalizing predicates with
  | nil =>
    obtain rfl : predicates = all := by simpa [withOperatorSignatures] using h
    simp
  | cons o os ih =>
    simp only [withOperatorSignatures, ite_error_eq_ok, List.any_eq_true, decide_eq_true_eq,
      not_exists, not_and] at h
    obtain ⟨rfl, hnames⟩ := ih h.2
    refine ⟨by simp, List.forall_mem_cons.2 ⟨h.1, fun q hq p hp => ?_⟩⟩
    exact hnames q hq p (List.mem_append_left _ hp)

theorem withOperatorSignatures_expanded (predicates : List Signature) (os : List Operator) :
    withOperatorSignatures predicates (os.map Operator.expanded) =
      withOperatorSignatures predicates os := by
  induction os generalizing predicates with
  | nil => rfl
  | cons o os ih =>
    rw [List.map_cons, withOperatorSignatures, withOperatorSignatures, Operator.name_expanded,
      Operator.signature_expanded, ih]

theorem checkDeclared_eq_ok {names : List String} {u : Unit} :
    checkDeclared predicates names = .ok u ↔
      ∀ name ∈ names, predicates.any (·.name = name) = true := by
  induction names with
  | nil => simp [checkDeclared]
  | cons name names ih =>
    rw [checkDeclared, List.forall_mem_cons, ← ih]
    by_cases h : predicates.any (·.name = name) = true <;> simp [h]

/-- Where negations are expanded, disequality is not a declared predicate. -/
theorem ne_guardName_of_negatesAtom (h : guardsCollide predicates os = false) {o : Operator}
    (ho : o ∈ os) {f : Formula} (hf : f ∈ o.precondition.conjuncts)
    (hnegates : f.negatesAtom = true) : ∀ p ∈ predicates, p.name ≠ guardName := by
  intro p hp hname
  have hpredicate : predicates.any (·.name = guardName) = true :=
    List.any_eq_true.2 ⟨p, hp, by simpa using hname⟩
  have hoperator : (os.any fun o => o.precondition.conjuncts.any Formula.negatesAtom) = true :=
    List.any_eq_true.2 ⟨o, ho, List.any_eq_true.2 ⟨f, hf, hnegates⟩⟩
  rw [guardsCollide, hpredicate, hoperator] at h
  simp at h

theorem guardsCollide_expanded (h : guardsCollide predicates os = false) :
    guardsCollide predicates (os.map Operator.expanded) = false := by
  rw [guardsCollide, Bool.and_eq_false_iff] at h ⊢
  refine h.imp_right fun hos => ?_
  rw [List.any_eq_false] at hos ⊢
  rw [List.forall_mem_map]
  intro o ho
  have hnone : ∀ f ∈ o.precondition.conjuncts, f.expands = false := by
    intro f hf
    have hterms := hos o ho
    simp only [List.any_eq_true, not_exists, not_and] at hterms
    exact Bool.eq_false_iff.2 fun hexpands => hterms f hf (Formula.negatesAtom_of_expands hexpands)
  have hsame : o.precondition.expandNegations o.parameters = o.precondition.conjuncts :=
    Formula.expandTerms_of_not_expands hnone _
  rw [Operator.precondition_expanded, Formula.conjuncts, hsame]
  exact hos o ho

def finish (t : Draft) (predicates : List Signature) (actionPredicates : List String) : Domain :=
  { types := t.types, predicates, functions := t.functions, constants := t.constants,
    name := t.name, requirements := t.requirements, operators := t.operators, actionPredicates,
    operatorsAsActions := t.operatorsAsActions,
    isProbabilistic := t.operators.any (·.effect.isProbabilistic) }

theorem build_eq_ok :
    t.build = .ok d ↔
      ∃ predicates actionPredicates, t.settleActions = .ok (predicates, actionPredicates) ∧
        guardsCollide predicates t.operators = false ∧ t.finish predicates actionPredicates = d := by
  simp only [build, bind_eq_ok, Prod.exists, ite_error_eq_ok, Bool.not_eq_true, pure_eq_ok]
  rfl

/-- How the predicates of a domain and its action predicates come from a draft. -/
theorem settleActions_cases {all : List Signature} {actions : List String}
    (h : t.settleActions = .ok (all, actions)) :
    (t.operatorsAsActions = true ∧ withOperatorSignatures t.predicates t.operators = .ok all ∧
      actions = Sorted.ofList (t.operators.map Operator.name)) ∨
    (t.operatorsAsActions = false ∧ all = t.predicates ∧
      actions = Sorted.ofList (t.actionPredicates.getD []) ∧
      ∀ name ∈ actions, all.any (·.name = name) = true) := by
  unfold settleActions at h
  cases hoperators : t.operatorsAsActions with
  | true =>
    simp only [hoperators, if_true, bind_eq_ok, pure_eq_ok, Prod.mk.injEq] at h
    obtain ⟨_, hall, rfl, rfl⟩ := h
    exact Or.inl ⟨rfl, hall, rfl⟩
  | false =>
    refine Or.inr ⟨rfl, ?_⟩
    cases hnames : t.actionPredicates with
    | none =>
      simp only [hoperators, Bool.false_eq_true, if_false, hnames, Except.ok.injEq,
        Prod.mk.injEq] at h
      obtain ⟨rfl, rfl⟩ := h
      exact ⟨rfl, rfl, by simp⟩
    | some names =>
      simp only [hoperators, Bool.false_eq_true, if_false, hnames, bind_eq_ok, pure_eq_ok,
        checkDeclared_eq_ok, Prod.mk.injEq] at h
      obtain ⟨-, hdeclared, rfl, rfl⟩ := h
      exact ⟨rfl, rfl, fun name hname => hdeclared name (Sorted.mem_of_mem_ofList hname)⟩

end Draft

namespace Domain

def redraft (d : Domain) (types : Types) : Draft :=
  { types, predicates := d.writtenPredicates, functions := d.functions, constants := d.constants,
    name := d.name, requirements := d.requirements,
    operators := d.operators.map Operator.expanded,
    actionPredicates :=
      if d.operatorsAsActions || d.actionPredicates.isEmpty then none else some d.actionPredicates,
    operatorsAsActions := d.operatorsAsActions }

/-- The domain with expanded preconditions, and with its types in another order. -/
def expanded (d : Domain) (types : Types) : Domain :=
  { d with types, operators := d.operators.map Operator.expanded }

end Domain

namespace Draft

variable {t : Draft} {d : Domain}

theorem predicates_of_build (h : t.build = .ok d) :
    d.predicates = t.predicates ++
      if t.operatorsAsActions then t.operators.map Operator.signature else [] := by
  obtain ⟨all, actions, hsettle, -, rfl⟩ := build_eq_ok.1 h
  rcases settleActions_cases hsettle with ⟨hoperators, hall, -⟩ | ⟨hoperators, rfl, -⟩
  · obtain ⟨rfl, -⟩ := withOperatorSignatures_eq_ok hall
    simp [finish, hoperators]
  · simp [finish, hoperators]

theorem predicates_subset_of_build (h : t.build = .ok d) : t.predicates ⊆ d.predicates :=
  predicates_of_build h ▸ List.subset_append_left _ _

/-- In a finished domain the guards of expanded negations mean disequality. -/
theorem predicate?_guardName (h : t.build = .ok d) {o : Operator} (ho : o ∈ t.operators) :
    ∀ f ∈ o.precondition.conjuncts, f.expands = true → t.predicate? "different" = none := by
  intro f hf hexpands
  have hsubset := predicates_subset_of_build h
  obtain ⟨all, actions, -, hguards, rfl⟩ := build_eq_ok.1 h
  refine List.find?_eq_none.2 fun p hp => ?_
  have hnegates := Formula.negatesAtom_of_expands hexpands
  simpa [guardName] using ne_guardName_of_negatesAtom hguards ho hf hnegates p (hsubset hp)

theorem writtenPredicates_of_build (h : t.build = .ok d) : d.writtenPredicates = t.predicates := by
  obtain ⟨all, actions, hsettle, -, rfl⟩ := build_eq_ok.1 h
  rcases settleActions_cases hsettle with ⟨hoperators, hall, rfl⟩ | ⟨hoperators, rfl, -⟩
  · obtain ⟨rfl, hnames⟩ := withOperatorSignatures_eq_ok hall
    have hold : ∀ p ∈ t.predicates, p.name ∉ Sorted.ofList (t.operators.map Operator.name) := by
      intro p hp hmem
      obtain ⟨o, ho, hname⟩ := List.mem_map.1 (Sorted.mem_ofList.1 hmem)
      exact hnames o ho p hp hname.symm
    have hnew : ∀ p ∈ t.operators.map Operator.signature,
        p.name ∈ Sorted.ofList (t.operators.map Operator.name) := by
      rw [List.forall_mem_map]
      exact fun o ho => Sorted.mem_ofList.2 (List.mem_map_of_mem ho)
    simp only [Domain.writtenPredicates, finish, hoperators, Bool.true_and,
      Domain.isActionPredicate, List.filter_append]
    rw [List.filter_eq_self.2 (by simpa using hold), List.filter_eq_nil_iff.2 (by simpa using hnew),
      List.append_nil]
  · simp [Domain.writtenPredicates, finish, hoperators]

/-- The operators give the same action predicates again, and so do their names. -/
theorem settleActions_redraft (h : t.build = .ok d) (types : Types) :
    (d.redraft types).settleActions = .ok (d.predicates, d.actionPredicates) := by
  have hwritten := writtenPredicates_of_build h
  obtain ⟨all, actions, hsettle, -, rfl⟩ := build_eq_ok.1 h
  rcases settleActions_cases hsettle with ⟨hoperators, hall, rfl⟩ | ⟨hoperators, rfl, rfl, hdeclared⟩
  · have hnames : (t.operators.map Operator.expanded).map Operator.name =
        t.operators.map Operator.name := by
      rw [List.map_map]
      rfl
    simp only [settleActions, Domain.redraft, hwritten]
    simp only [finish, hoperators, if_true, withOperatorSignatures_expanded, hall, hnames, ok_bind]
    rfl
  · have hascending := Sorted.ascending_ofList (t.actionPredicates.getD [])
    simp only [settleActions, Domain.redraft, hwritten]
    simp only [finish, hoperators, Bool.false_eq_true, if_false, Bool.false_or]
    cases hempty : (Sorted.ofList (t.actionPredicates.getD [])).isEmpty with
    | true => simp [List.isEmpty_iff.1 hempty]
    | false =>
      have hcheck := (checkDeclared_eq_ok (u := ())).2 hdeclared
      simp only [Bool.false_eq_true, if_false, hcheck, ok_bind,
        Sorted.ofList_of_ascending hascending]
      rfl

theorem build_redraft (h : t.build = .ok d) (types : Types) :
    (d.redraft types).build = .ok (d.expanded types) := by
  have hsettle := settleActions_redraft h types
  obtain ⟨all, actions, -, hguards, rfl⟩ := build_eq_ok.1 h
  refine build_eq_ok.2 ⟨all, actions, hsettle, guardsCollide_expanded hguards, ?_⟩
  have heffects : (t.operators.map Operator.expanded).any (·.effect.isProbabilistic) =
      t.operators.any (·.effect.isProbabilistic) := by
    rw [List.any_map]
    rfl
  simp only [finish, Domain.redraft, Domain.expanded, heffects]

end Draft

end Pddl
