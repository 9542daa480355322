import Pddl.Proofs.Domain.Soundness
import Pddl.Proofs.Formula.Negation
import Pddl.Proofs.Operator.RoundTrip

namespace Pddl

universe u v

namespace Formula

/-- The variables that a formula speaks about, place by place: those that no quantifier around the
place binds. A negation, bare or under a time qualifier, speaks about none. -/
def subjects : Formula → List Entity
  | .not _ => []
  | .timed _ (.not _) => []
  | f => (f.nodes []).flatMap Node.free

def mentioned (fs : List Formula) : List Entity := fs.flatMap subjects

/-- Whether the formula says that the application fails for all objects apart from those of the
variables seen. Where all variables are seen, it is the negated atom. -/
structure Denies (g : Formula) (a : Application) (seen : List Entity) : Prop where
  satisfied : ∀ {Ω : Type u} {V : Type v} (I : Interpretation Ω V) (s : State Ω V)
    (ρ : Environment Ω), g.Satisfied I s ρ ↔ a.FailsApart seen I s ρ
  satisfied_not : (∀ v ∈ a.arguments, v.isVariable = true → v ∈ seen) →
    ∀ {Ω : Type u} {V : Type v} (I : Interpretation Ω V) (s : State Ω V) (ρ : Environment Ω),
      g.Satisfied I s ρ ↔ (Formula.not (.atom a)).Satisfied I s ρ

/-- What a term becomes behind terms that speak about the variables `seen`. -/
def ExpandsTo (f g : Formula) (seen : List Entity) : Prop :=
  match f with
  | .not (.atom a) => g.Denies.{u, v} a seen
  | .timed t (.not (.atom a)) => ∃ h, g = .timed t h ∧ h.Denies.{u, v} a seen
  | f => g = f

variable {symbols : Symbols} {scope : Scope} {c : Context} {fs before : List Formula}
  {names : List String} {f : Formula} {a : Application} {seen : List Entity} {taken : List String}

theorem denies_of_iff {g : Formula} (h : ∀ {Ω : Type u} {V : Type v} (I : Interpretation Ω V)
    (s : State Ω V) (ρ : Environment Ω), g.Satisfied I s ρ ↔ a.FailsApart seen I s ρ) :
    g.Denies.{u, v} a seen :=
  ⟨h, fun hseen _ _ I s ρ => (h I s ρ).trans (Application.failsApart_of_seen hseen)⟩

theorem denies_expandAtom (ha : Expandable a seen taken) :
    (expandAtom seen taken a).1.Denies.{u, v} a seen :=
  denies_of_iff fun _ _ _ => satisfied_expandAtom ha

theorem Denies.congr {g : Formula} {others : List Entity} (h : g.Denies.{u, v} a seen)
    (hothers : ∀ v, v ∈ seen ↔ v ∈ others) : g.Denies.{u, v} a others :=
  denies_of_iff fun I s ρ => (h.satisfied I s ρ).trans (Application.failsApart_congr hothers)

theorem mem_subjects {v : Entity} :
    v ∈ f.subjects ↔ f.isNegation = false ∧ v ∈ f.freeVariables := by
  unfold subjects isNegation
  split
  · simp
  · simp
  · simpa using mem_flatMap_free

theorem mem_mentioned_append {v : Entity} :
    v ∈ mentioned (fs ++ [f]) ↔ v ∈ mentioned fs ∨ f.isNegation = false ∧ v ∈ f.freeVariables := by
  rw [← mem_subjects]
  simp [mentioned]

theorem exists_of_mem_mentioned {v : Entity} (h : v ∈ mentioned fs) :
    ∃ f ∈ fs, v ∈ f.freeVariables := by
  obtain ⟨f, hf, hv⟩ := List.mem_flatMap.1 h
  exact ⟨f, hf, (mem_subjects.1 hv).2⟩

def Context.after (c : Context) (fs : List Formula) : Context :=
  fs.foldl (fun c f => (expandTerm c f).2) c

theorem length_expandTerms (c : Context) (fs : List Formula) :
    (expandTerms c fs).length = fs.length := by
  induction fs generalizing c with
  | nil => rfl
  | cons f fs ih => rw [expandTerms, List.length_cons, List.length_cons, ih]

theorem getElem?_expandTerms (c : Context) (fs : List Formula) (i : Nat) :
    (expandTerms c fs)[i]? = fs[i]?.map fun f => (expandTerm (c.after (fs.take i)) f).1 := by
  induction fs generalizing c i with
  | nil => rfl
  | cons f fs ih =>
    cases i with
    | zero => rfl
    | succ i =>
      rw [expandTerms, List.getElem?_cons_succ, List.getElem?_cons_succ, List.take_succ_cons]
      exact ih _ i

/-- Whether the context knows what the terms `before` speak about, and that the names are taken. -/
structure Context.Follows (c : Context) (before : List Formula) (names : List String) : Prop where
  seen : ∀ v, v ∈ c.seen ↔ v ∈ mentioned before
  taken : names ⊆ c.taken

theorem Context.Follows.expandTerm (h : c.Follows before names) (f : Formula) :
    (expandTerm c f).2.Follows (before ++ [f]) names := by
  refine ⟨fun v => ?_, fun name hname => taken_subset_expandTerm c f (h.taken hname)⟩
  rw [seen_expandTerm, mem_mentioned_append, ← h.seen]
  cases hf : f.isNegation <;> simp [Sorted.mem_insertAll, or_comm]

theorem Context.follows_after (names : List String) (fs : List Formula) :
    (Context.after ⟨[], names⟩ fs).Follows fs names := by
  -- from the back, since the last term is the one that changes the context behind it
  induction fs using List.reverseRecOn with
  | nil => exact ⟨fun v => Iff.rfl, List.Subset.refl names⟩
  | append_singleton fs f ih =>
    rw [after, List.foldl_append, ← after]
    exact ih.expandTerm f

theorem arguments_atom (enclosing : List Entity) (a : Application) :
    (Node.mk enclosing (.atom a)).arguments = a.arguments := by
  simp [Node.arguments, Node.atoms, Node.terms]

theorem mem_freeVariables_of_atom (ha : ⟨[], .atom a⟩ ∈ f.nodes []) {v : Entity}
    (hv : v ∈ a.variableArguments) : v ∈ f.freeVariables := by
  obtain ⟨hargument, hvariable⟩ := List.mem_filter.1 hv
  refine mem_freeVariables.2 ⟨hvariable, ⟨[], .atom a⟩, ha, ?_, by simp⟩
  rwa [arguments_atom]

/-- The arguments of an atom that no quantifier encloses have different names. -/
theorem eq_of_sound_atom (h : Node.Sound ⟨[], .atom a⟩ symbols scope) {d e : Entity}
    (hd : d ∈ a.arguments) (he : e ∈ a.arguments) (hname : d.name = e.name) : d = e := by
  have harguments := h.arguments
  rw [arguments_atom] at harguments
  have hsees : ∀ x ∈ a.arguments, scope.Sees x :=
    fun x hx => (harguments x hx).resolve_right List.not_mem_nil
  exact (hsees d hd).unique (hsees e he) hname

section Known

variable (hbefore : ∀ g ∈ before, ∀ v ∈ g.freeVariables, v.name ∈ names)
  (hnames : ∀ v ∈ f.freeVariables, v.name ∈ names)
  (hsound : ∀ n ∈ f.nodes [], n.Sound symbols scope)

include hbefore hnames hsound

theorem Context.Follows.denies (h : c.Follows before names) (ha : ⟨[], .atom a⟩ ∈ f.nodes []) :
    (expandAtom c.seen c.taken a).1.Denies.{u, v} a (mentioned before) := by
  refine (denies_expandAtom ⟨?_, fun w hw => ?_, fun v hv => ?_⟩).congr h.seen
  · exact fun d hd e he => eq_of_sound_atom (hsound _ ha) hd he
  · obtain ⟨g, hg, hfree⟩ := exists_of_mem_mentioned ((h.seen w).1 hw)
    exact h.taken (hbefore g hg w hfree)
  · exact h.taken (hnames v (mem_freeVariables_of_atom ha hv))

theorem Context.Follows.expandsTo (h : c.Follows before names) :
    f.ExpandsTo.{u, v} (Formula.expandTerm c f).1 (mentioned before) := by
  unfold ExpandsTo
  split
  · exact h.denies hbefore hnames hsound (by simp [nodes])
  · exact ⟨_, rfl, h.denies hbefore hnames hsound (by simp [nodes])⟩
  · refine expandTerm_of_not_expands ?_ c
    unfold expands
    split <;> simp_all

end Known

theorem expandsTo_expandTerms (hnames : ∀ f ∈ fs, ∀ v ∈ f.freeVariables, v.name ∈ names)
    (hsound : ∀ f ∈ fs, ∀ n ∈ f.nodes [], n.Sound symbols scope) {i : Nat} (hf : fs[i]? = some f) :
    ∃ g, (expandTerms ⟨[], names⟩ fs)[i]? = some g ∧
      f.ExpandsTo.{u, v} g (mentioned (fs.take i)) := by
  have hmem : f ∈ fs := List.mem_of_getElem? hf
  refine ⟨_, by rw [getElem?_expandTerms, hf, Option.map_some], ?_⟩
  exact (Context.follows_after names (fs.take i)).expandsTo
    (fun g hg => hnames g (List.mem_of_mem_take hg)) (hnames f hmem) (hsound f hmem)

theorem freeVariables_of_mem_conjuncts {f g : Formula} (h : f ∈ g.conjuncts) :
    f.freeVariables ⊆ g.freeVariables := by
  intro v hv
  obtain ⟨hvariable, n, hn, hargument, hfree⟩ := mem_freeVariables.1 hv
  exact mem_freeVariables.2 ⟨hvariable, n, nodes_of_mem_conjuncts h [] hn, hargument, hfree⟩

end Formula

namespace Symbols

/-- The expansion has one term for each conjunct of the precondition. A negated atom, bare or under
a time qualifier, becomes a term that denies the atom behind the conjuncts before it; any other
conjunct stays as it is. -/
theorem expandsTo_of_readOperator {symbols : Symbols} {t : Tree} {o : Operator}
    (h : symbols.readOperator t = .ok o) :
    (o.precondition.expandNegations o.parameters).length = o.precondition.conjuncts.length ∧
      ∀ (i : Nat) (f : Formula), o.precondition.conjuncts[i]? = some f →
        ∃ g, (o.precondition.expandNegations o.parameters)[i]? = some g ∧
          f.ExpandsTo.{u, v} g (Formula.mentioned (o.precondition.conjuncts.take i)) := by
  obtain ⟨scope, hsound⟩ := sound_of_readOperator h
  refine ⟨Formula.length_expandTerms _ _, fun i f hf => ?_⟩
  have hnames : ∀ g ∈ o.precondition.conjuncts, ∀ v ∈ g.freeVariables,
      v.name ∈ (o.parameters ++ o.precondition.freeVariables).map Entity.name :=
    fun g hg v hv => List.mem_map_of_mem
      (List.mem_append_right _ (Formula.freeVariables_of_mem_conjuncts hg hv))
  have hterms : ∀ g ∈ o.precondition.conjuncts, ∀ n ∈ g.nodes [], n.Sound symbols scope :=
    fun g hg n hn => hsound.precondition n (Formula.nodes_of_mem_conjuncts hg [] hn)
  exact Formula.expandsTo_expandTerms hnames hterms hf

def travelling : Symbols :=
  ⟨.untyped, [⟨"at", ["default"]⟩, ⟨"road", ["default", "default"]⟩], [], []⟩

/-- An operator with a condition on its first parameter and two negations behind it. The variable of
the quantifier is not one that the condition speaks about. -/
def detour : String :=
  "(:durative-action detour :parameters (?x ?y) :duration (= ?duration 1) " ++
    ":condition (and (at start (exists (?z) (road ?x ?z))) (over all (not (road ?x ?y))) " ++
      "(not (at ?y))) :effect (at end (at ?y)))"

theorem expandsTo_of_readOperator_detour :
    ∃ o, travelling.readOperator (Excerpt.ofString detour).tree = .ok o ∧
      o.precondition.conjuncts.map Formula.expands = [false, true, true] ∧
      Formula.mentioned (o.precondition.conjuncts.take 1) = [⟨"?x", "default"⟩] ∧
      Formula.mentioned (o.precondition.conjuncts.take 2) = [⟨"?x", "default"⟩] ∧
      (o.precondition.expandNegations o.parameters).length = o.precondition.conjuncts.length ∧
        ∀ (i : Nat) (f : Formula), o.precondition.conjuncts[i]? = some f →
          ∃ g, (o.precondition.expandNegations o.parameters)[i]? = some g ∧
            f.ExpandsTo.{u, v} g (Formula.mentioned (o.precondition.conjuncts.take i)) := by
  obtain ⟨o, ho, hexpands, hfirst, hsecond⟩ : ∃ o,
      travelling.readOperator (Excerpt.ofString detour).tree = .ok o ∧
        o.precondition.conjuncts.map Formula.expands = [false, true, true] ∧
        Formula.mentioned (o.precondition.conjuncts.take 1) = [⟨"?x", "default"⟩] ∧
        Formula.mentioned (o.precondition.conjuncts.take 2) = [⟨"?x", "default"⟩] := by
    decide +kernel
  exact ⟨o, ho, hexpands, hfirst, hsecond, expandsTo_of_readOperator ho⟩

end Symbols

end Pddl
