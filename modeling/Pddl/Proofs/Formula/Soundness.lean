import Pddl.Proofs.Formula.FreeVariables
import Pddl.Proofs.Formula.Grammar

namespace Pddl

/-- What the symbols and the scope around a formula say about a node of it. -/
structure Node.Sound (n : Node) (symbols : Symbols) (scope : Scope) : Prop where
  atoms : ∀ a ∈ n.atoms, a.Fits symbols.predicates symbols.types
  terms : ∀ a ∈ n.terms, a.Fits symbols.functions symbols.types
  arguments : ∀ e ∈ n.arguments, scope.Sees e ∨ e ∈ n.enclosing
  nodup : (n.binders.map Entity.name).Nodup
  fresh : ∀ v ∈ n.binders, scope.contains v.name = false ∧ ∀ e ∈ n.enclosing, e.name ≠ v.name

theorem Scope.sees_append {binders scope : Scope} {e : Entity}
    (h : Scope.Sees (binders ++ scope) e) :
    e ∈ binders ∨ (∀ v ∈ binders, v.name ≠ e.name) ∧ scope.Sees e := by
  rw [Sees, find?, List.find?_append, Option.or_eq_some_iff] at h
  rcases h with h | ⟨hnone, h⟩
  · exact Or.inl (List.mem_of_find?_eq_some h)
  · exact Or.inr ⟨by simpa using hnone, h⟩

/-- Whether `inner` is what the quantifiers of the variables `enclosing` make of `scope`. -/
structure Scope.Nests (inner scope : Scope) (enclosing : List Entity) : Prop where
  sees : ∀ e, inner.Sees e → scope.Sees e ∨ e ∈ enclosing
  scope_subset : ∀ e ∈ scope, e ∈ inner
  enclosing_subset : ∀ e ∈ enclosing, e ∈ inner

namespace Scope.Nests

variable {inner innermost scope : Scope} {enclosing binders : List Entity}

theorem refl (scope : Scope) : scope.Nests scope [] :=
  ⟨fun _ h => Or.inl h, fun _ h => h, by simp⟩

theorem bind (h : inner.Nests scope enclosing) (hbind : inner.bind binders = .ok innermost) :
    innermost.Nests scope (binders ++ enclosing) := by
  obtain ⟨rfl, -, -⟩ := Scope.bind_eq_ok.1 hbind
  refine ⟨?_, ?_, ?_⟩
  · intro e he
    rcases sees_append he with hmem | ⟨-, hinner⟩
    · exact Or.inr (List.mem_append_left _ (List.mem_reverse.1 hmem))
    · exact (h.sees e hinner).imp_right (List.mem_append_right _)
  · exact fun e he => List.mem_append_right _ (h.scope_subset e he)
  · intro e he
    rcases List.mem_append.1 he with he | he
    · exact List.mem_append_left _ (List.mem_reverse.2 he)
    · exact List.mem_append_right _ (h.enclosing_subset e he)

end Scope.Nests

namespace Symbols

variable {symbols : Symbols} {scope inner : Scope} {mode : Mode} {enclosing : List Entity}

theorem Values.checked {s : Shape} {x : Numeric} (h : symbols.Values scope s x) :
    ∀ a ∈ x.terms, a.Checked symbols.functions symbols.types scope := by
  induction h with
  | number => simp [Numeric.terms]
  | function _ hchecked => simpa [Numeric.terms] using hchecked
  | negated _ ih => simpa [Numeric.terms] using ih
  | folded op _ hlen _ _ ihfirst ihrest =>
    intro a ha
    rw [Numeric.terms_foldl, List.mem_append, List.mem_flatMap] at ha
    rcases ha with ha | ⟨y, hy, ha⟩
    · exact ihfirst a ha
    · obtain ⟨s, hs⟩ := exists_zip_of_mem hlen hy
      exact ihrest s y hs a ha

theorem sound_of_checked {n : Node} (hnests : inner.Nests scope n.enclosing)
    (hatoms : ∀ a ∈ n.atoms, a.Checked symbols.predicates symbols.types inner)
    (hterms : ∀ a ∈ n.terms, a.Checked symbols.functions symbols.types inner)
    (harguments : ∀ e ∈ n.arguments, inner.Sees e) (hbinders : n.binders = []) :
    n.Sound symbols scope where
  atoms a ha := (hatoms a ha).fits
  terms a ha := (hterms a ha).fits
  arguments e he := hnests.sees e (harguments e he)
  nodup := by simp [hbinders]
  fresh := by simp [hbinders]

theorem sound_of_empty {n : Node} (hatoms : n.atoms = []) (hterms : n.terms = [])
    (harguments : n.arguments = []) (hbinders : n.binders = []) : n.Sound symbols scope := by
  constructor <;> simp [hatoms, hterms, harguments, hbinders]

theorem sound_of_bind {n : Node} {innermost : Scope} (hnests : inner.Nests scope n.enclosing)
    (hbind : inner.bind n.binders = .ok innermost) (hatoms : n.atoms = []) (hterms : n.terms = [])
    (harguments : n.arguments = []) : n.Sound symbols scope := by
  obtain ⟨-, hnodup, hfresh⟩ := Scope.bind_eq_ok.1 hbind
  refine ⟨by simp [hatoms], by simp [hterms], by simp [harguments], hnodup, fun v hv => ⟨?_, ?_⟩⟩
  · exact Scope.contains_eq_false.2 fun e he => hfresh v hv e (hnests.scope_subset e he)
  · exact fun e he => hfresh v hv e (hnests.enclosing_subset e he)

theorem sound_of_terms {n : Node} {a : Application} {s : Shape} {x : Numeric}
    (hnests : inner.Nests scope n.enclosing)
    (ha : a.Checked symbols.functions symbols.types inner) (hx : symbols.Values inner s x)
    (hatoms : n.atoms = []) (hterms : n.terms = a :: x.terms)
    (harguments : n.arguments = n.terms.flatMap Application.arguments) (hbinders : n.binders = []) :
    n.Sound symbols scope := by
  have hchecked : ∀ b ∈ n.terms, b.Checked symbols.functions symbols.types inner := by
    rw [hterms, List.forall_mem_cons]
    exact ⟨ha, hx.checked⟩
  refine sound_of_checked hnests (by simp [hatoms]) hchecked ?_ hbinders
  rw [harguments]
  simp only [List.mem_flatMap, forall_exists_index, and_imp]
  exact fun e b hb he => (hchecked b hb).sees e he

theorem Denotes.sound {s : Shape} {f : Formula} (h : symbols.Denotes inner mode s f)
    (hnests : inner.Nests scope enclosing) :
    ∀ n ∈ f.nodes enclosing, n.Sound symbols scope := by
  -- the scope inside grows with the variables around the nodes; `hnests` relates the two
  induction h generalizing enclosing with
  | trivial =>
    simp only [Formula.trivial, Formula.nodes, Formula.nodesAll, List.mem_singleton, forall_eq]
    exact sound_of_empty rfl rfl rfl rfl
  | @atom scope mode a _ hchecked =>
    simp only [Formula.nodes, List.mem_singleton, forall_eq]
    refine sound_of_checked hnests ?_ (by simp [Node.terms]) ?_ rfl
    · simpa [Node.atoms] using hchecked
    · simpa [Node.arguments, Node.atoms, Node.terms] using hchecked.sees
  | not _ ih | delete _ ih | timed _ _ ih =>
    rw [Formula.nodes, List.forall_mem_cons]
    exact ⟨sound_of_empty rfl rfl rfl rfl, ih hnests⟩
  | and hlen _ ih | or hlen _ ih =>
    rw [Formula.nodes, List.forall_mem_cons, Formula.nodesAll_eq_flatMap]
    refine ⟨sound_of_empty rfl rfl rfl rfl, ?_⟩
    simp only [List.mem_flatMap, forall_exists_index, and_imp]
    intro n f hf hn
    obtain ⟨s, hs⟩ := exists_zip_of_mem hlen hf
    exact ih s f hs hnests n hn
  | imply _ _ ihleft ihright | when _ _ ihleft ihright =>
    rw [Formula.nodes, List.forall_mem_cons, List.forall_mem_append]
    exact ⟨sound_of_empty rfl rfl rfl rfl, ihleft hnests, ihright hnests⟩
  | forAll _ _ hbind _ ih | thereIs _ _ hbind _ ih =>
    rw [Formula.nodes, List.forall_mem_cons]
    exact ⟨sound_of_bind hnests hbind rfl rfl rfl, ih (hnests.bind hbind)⟩
  | unbound _ _ _ ih => exact ih hnests
  | assign ha hx | comparison ha hx =>
    simp only [Formula.nodes, List.mem_singleton, forall_eq]
    exact sound_of_terms hnests ha hx rfl rfl rfl rfl
  | probabilistic hlen _ _ _ ih =>
    rw [Formula.nodes, List.forall_mem_cons, Formula.nodesOutcomes_eq_flatMap]
    refine ⟨sound_of_empty rfl rfl rfl rfl, ?_⟩
    simp only [List.mem_flatMap, forall_exists_index, and_imp]
    intro n o ho hn
    obtain ⟨a, hao⟩ := exists_zip_of_mem hlen ho
    exact ih a o hao hnests n hn
  | equal ha hb | different _ ha hb =>
    simp only [Formula.nodes, List.mem_singleton, forall_eq]
    refine sound_of_checked hnests (by simp [Node.atoms]) (by simp [Node.terms]) ?_ rfl
    simpa [Node.arguments] using ⟨ha, hb⟩

theorem sees_of_mem_freeVariables {f : Formula} (h : ∀ n ∈ f.nodes [], n.Sound symbols scope) :
    ∀ e ∈ f.freeVariables, scope.Sees e := by
  intro e he
  obtain ⟨-, n, hn, hargument, hfree⟩ := Formula.mem_freeVariables.1 he
  exact ((h n hn).arguments e hargument).resolve_right fun henclosing => hfree e henclosing rfl

theorem Denotes.sees_freeVariables {s : Shape} {f : Formula}
    (h : symbols.Denotes scope mode s f) :
    ∀ e ∈ f.freeVariables, scope.Sees e ∧ e.isVariable = true :=
  fun e he => ⟨sees_of_mem_freeVariables (h.sound (.refl scope)) e he,
    (Formula.mem_freeVariables.1 he).1⟩

/-- Every formula that is read is sound at all its nodes: predicates and functions are declared and
fit their arguments, arguments are visible or bound by an enclosing quantifier, and quantifiers bind
new names. Its free variables are all in the scope. -/
theorem readFormula_sound {what : String} {t : Tree} {f : Formula}
    (h : symbols.readFormula what scope mode t = .ok f) :
    (∀ n ∈ f.nodes [], n.Sound symbols scope) ∧ ∀ e ∈ f.freeVariables, scope.Sees e :=
  have hdenotes := readFormula_eq_ok.1 h
  ⟨hdenotes.sound (.refl scope), fun e he => (hdenotes.sees_freeVariables e he).1⟩

theorem readFormula_sound_forAll :
    ∃ f, readFormula ⟨.untyped, [⟨"p", ["default"]⟩], [], []⟩ "a formula" [⟨"a", "default"⟩]
        .condition (Excerpt.ofString "(forall (?x) (and (p ?x) (not (p a))))").tree = .ok f ∧
      (∀ n ∈ f.nodes [], n.Sound ⟨.untyped, [⟨"p", ["default"]⟩], [], []⟩ [⟨"a", "default"⟩]) ∧
        ∀ e ∈ f.freeVariables, Scope.Sees [⟨"a", "default"⟩] e := by
  obtain ⟨f, hf, -⟩ : ∃ f, readFormula ⟨.untyped, [⟨"p", ["default"]⟩], [], []⟩ "a formula"
      [⟨"a", "default"⟩] .condition
        (Excerpt.ofString "(forall (?x) (and (p ?x) (not (p a))))").tree = .ok f ∧ True := by
    decide +kernel
  exact ⟨f, hf, readFormula_sound hf⟩

end Symbols

end Pddl
