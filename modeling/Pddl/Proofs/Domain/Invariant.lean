import Pddl.Proofs.Domain.Actions
import Pddl.Proofs.Domain.Determinize
import Pddl.Proofs.Formula.Entities

namespace Pddl

def Operator.entities (o : Operator) : List Entity :=
  o.parameters ++ o.precondition.entities ++ o.effect.entities ++
    o.duration.toList.flatMap fun d => d.value.terms.flatMap Application.arguments

/-- The types that the domain uses anywhere: in its hierarchy, for constants and parameters, and
for the variables and arguments in its operators. -/
def Domain.usedTypes (d : Domain) : List String :=
  d.types.hierarchy.flatMap (fun p => p.1 :: p.2) ++ d.constants.map Entity.type ++
    (d.predicates ++ d.functions).flatMap Signature.parameters ++
      (d.operators.flatMap Operator.entities).map Entity.type

/-- Without typing everything has the same type; with typing that one occurs nowhere, and all types
are declared, except `object`. -/
structure Domain.WellTyped (d : Domain) : Prop where
  untyped : d.types.usesTyping = false → d.types.declared = [implicitType] ∧
    d.types.hierarchy = [] ∧ ∀ type ∈ d.usedTypes, type = implicitType
  typed : d.types.usesTyping = true → implicitType ∉ d.types.declared ∧
    ∀ type ∈ d.usedTypes, type ≠ implicitType ∧ (type ∈ d.types.declared ∨ type = objectType)

namespace Types.FromText

variable {t : Types}

theorem eq_untyped (h : t.FromText) (htyping : t.usesTyping = false) : t = Types.untyped := by
  cases h with
  | untyped => rfl
  | @«section» ss gs => simp [usesTyping_ofGroups] at htyping

theorem admits_of_mentions (h : t.FromText) {type : String} (htype : Mentions t.hierarchy type) :
    t.Admits .reject type := by
  have hdeclared := h.mem_declared htype
  cases htyping : t.usesTyping with
  | false =>
    obtain rfl := h.eq_untyped htyping
    exact absurd htype (mentions_nil type)
  | true =>
    rw [admits_of_typing htyping, contains_eq_true.2 hdeclared]
    exact Or.inl rfl

end Types.FromText

theorem Symbols.Describes.admits {symbols : Symbols} {o : Operator} {scope : Scope}
    (h : symbols.Describes o scope)
    (hconstants : ∀ c ∈ symbols.constants, symbols.types.Admits .reject c.type) :
    ∀ e ∈ o.entities, symbols.types.Admits .reject e.type := by
  obtain ⟨ss, -, hdeclares⟩ := h.parameters
  have hparameters : ∀ e ∈ o.parameters, symbols.types.Admits .reject e.type :=
    fun e he => (hdeclares.declarable e he).admits
  have hscope : ∀ e ∈ scope, symbols.types.Admits .reject e.type := by
    intro e he
    rw [(Scope.bind_eq_ok.1 h.bind).1, List.mem_append, List.mem_reverse] at he
    exact he.elim (hparameters e) fun hconstant => hconstants e (List.mem_reverse.1 hconstant)
  obtain ⟨s, -, hprecondition⟩ := h.precondition
  obtain ⟨u, -, heffect⟩ := h.effect
  unfold Operator.entities
  rw [List.forall_mem_append, List.forall_mem_append, List.forall_mem_append]
  refine ⟨⟨⟨hparameters, hprecondition.admits hscope⟩, heffect.admits hscope⟩, ?_⟩
  intro e he
  obtain ⟨d, hd, he⟩ := List.mem_flatMap.1 he
  obtain ⟨a, ha, he⟩ := List.mem_flatMap.1 he
  obtain ⟨v, -, hvalue⟩ := h.duration d (Option.mem_toList.1 hd)
  exact hscope e ((hvalue.checked a ha).sees e he).mem

namespace Draft

variable {t : Draft} {d : Domain}

theorem mem_predicates_of_build (h : t.build = .ok d) {q : Signature} (hq : q ∈ d.predicates) :
    q ∈ t.predicates ∨ ∃ o ∈ t.operators, o.signature = q := by
  rw [predicates_of_build h, List.mem_append] at hq
  refine hq.imp_right fun hsignature => ?_
  split at hsignature
  · exact List.mem_map.1 hsignature
  · simp at hsignature

theorem admits_of_build (ht : t.FromText) (h : t.build = .ok d) :
    ∀ type ∈ d.usedTypes, t.types.Admits .reject type := by
  have hsignatures := fun q => mem_predicates_of_build h (q := q)
  obtain ⟨all, actions, -, -, rfl⟩ := build_eq_ok.1 h
  obtain ⟨ss, -, hdeclares⟩ := ht.symbols.constants
  have hconstants : ∀ c ∈ t.constants, t.types.Admits .reject c.type :=
    fun c hc => (hdeclares.declarable c hc).admits
  have hoperators : ∀ o ∈ t.operators, ∀ e ∈ o.entities, t.types.Admits .reject e.type := by
    intro o ho
    obtain ⟨scope, hdescribes⟩ := ht.operators o ho
    exact hdescribes.admits hconstants
  unfold Domain.usedTypes
  rw [List.forall_mem_append, List.forall_mem_append, List.forall_mem_append]
  refine ⟨⟨⟨?_, List.forall_mem_map.2 hconstants⟩, ?_⟩, List.forall_mem_map.2 ?_⟩
  · intro type htype
    obtain ⟨p, hp, htype⟩ := List.mem_flatMap.1 htype
    refine ht.symbols.types.admits_of_mentions ⟨p, hp, ?_⟩
    exact (List.mem_cons.1 htype).imp_left Eq.symm
  · intro type htype
    obtain ⟨q, hq, htype⟩ := List.mem_flatMap.1 htype
    rcases List.mem_append.1 hq with hpredicate | hfunction
    · rcases hsignatures q hpredicate with hdeclared | ⟨o, ho, rfl⟩
      · exact (ht.symbols.predicates q hdeclared).admits type htype
      · -- the type of a parameter of an operator
        obtain ⟨e, he, rfl⟩ := List.mem_map.1 htype
        have hentity : e ∈ o.entities := by simp [Operator.entities, he]
        exact hoperators o ho e hentity
    · exact (ht.symbols.functions q hfunction).admits type htype
  · intro e he
    obtain ⟨o, ho, he⟩ := List.mem_flatMap.1 he
    exact hoperators o ho e he

end Draft

namespace Domain

variable {d e : Domain}

theorem wellTyped_of_admits (htypes : d.types.FromText)
    (h : ∀ type ∈ d.usedTypes, d.types.Admits .reject type) : d.WellTyped := by
  constructor
  case untyped =>
    intro htyping
    refine ⟨?_, ?_, fun type htype => (Types.admits_of_not_typing htyping type).1 (h type htype)⟩
    · rw [htypes.eq_untyped htyping]
      rfl
    · rw [htypes.eq_untyped htyping]
      rfl
  case typed =>
    intro htyping
    have hseparate : implicitType ∉ d.types.declared := by
      intro hmem
      have hcontains := htypes.separate htyping
      simp [Types.contains_eq_true.2 hmem] at hcontains
    refine ⟨hseparate, fun type htype => ?_⟩
    have hadmits : type ∈ d.types.declared ∨ type = objectType := by
      have hknown := (Types.admits_of_typing htyping type).1 (h type htype)
      simpa [Types.contains_eq_true] using hknown
    refine ⟨?_, hadmits⟩
    rintro rfl
    exact hadmits.elim hseparate (by decide)

theorem WellTyped.of_subset (h : d.WellTyped) (htypes : e.types = d.types)
    (hused : e.usedTypes ⊆ d.usedTypes) : e.WellTyped := by
  constructor
  case untyped =>
    rw [htypes]
    intro htyping
    obtain ⟨hdeclared, hhierarchy, hall⟩ := h.untyped htyping
    exact ⟨hdeclared, hhierarchy, fun type htype => hall type (hused htype)⟩
  case typed =>
    rw [htypes]
    intro htyping
    obtain ⟨himplicit, hall⟩ := h.typed htyping
    exact ⟨himplicit, fun type htype => hall type (hused htype)⟩

end Domain

def Formula.timedBy (times : List Time) (f : Formula) : Formula := times.foldr .timed f

theorem Formula.negatesAtom_timedBy (times : List Time) (a : Application) :
    (timedBy times (.not (.atom a))).negatesAtom = true := by
  induction times with
  | nil => rfl
  | cons time times ih => exact ih

/-- The invariant of domains. Action predicates are declared; if operators double as actions, each
of them has the predicate of its name to itself. Where the guards of expanded negations would be
read as atoms, there are no negations to expand. -/
structure Domain.WellFormed (d : Domain) : Prop where
  typing : d.WellTyped
  parameters : ∀ o ∈ d.operators, (o.parameters.map Entity.name).Nodup ∧
    ∀ e ∈ o.parameters, ∀ c ∈ d.constants, c.name ≠ e.name
  actions : ∀ name ∈ d.actionPredicates, ∃ q ∈ d.predicates, q.name = name
  doubles : d.operatorsAsActions = true → (d.operators.map Operator.name).Nodup ∧
    (∀ name, name ∈ d.actionPredicates ↔ name ∈ d.operators.map Operator.name) ∧
    ∀ o ∈ d.operators, d.predicates.filter (·.name = o.name) = [o.signature]
  probabilistic : d.isProbabilistic = true ↔
    ∃ o ∈ d.operators, ∃ n ∈ o.effect.nodes [], n.IsProbabilistic
  guards : (∃ q ∈ d.predicates, q.name = "different") → ∀ o ∈ d.operators,
    ∀ times a, Formula.timedBy times (.not (.atom a)) ∉ o.precondition.conjuncts

namespace Domain

variable {d e : Domain} {declared : List Signature}

theorem filter_eq_singleton {os : List Operator} (hnodup : (os.map Operator.name).Nodup)
    {o : Operator} (ho : o ∈ os) : os.filter (·.name = o.name) = [o] := by
  induction os with
  | nil => exact absurd ho List.not_mem_nil
  | cons q os ih =>
    rw [List.map_cons, List.nodup_cons] at hnodup
    rcases List.mem_cons.1 ho with rfl | ho
    · have hother : ∀ q ∈ os, q.name ≠ o.name :=
        fun q hq hname => hnodup.1 (hname ▸ List.mem_map_of_mem hq)
      rw [List.filter_cons_of_pos (by simp), List.filter_eq_nil_iff.2 (by simpa using hother)]
    · have hne : q.name ≠ o.name := fun hname => hnodup.1 (hname ▸ List.mem_map_of_mem ho)
      rw [List.filter_cons_of_neg (by simpa using hne), ih hnodup.2 ho]

theorem Doubles.filter_predicates (h : d.Doubles declared) {o : Operator} (ho : o ∈ d.operators) :
    d.predicates.filter (·.name = o.name) = [o.signature] := by
  have hdeclared : declared.filter (·.name = o.name) = [] :=
    List.filter_eq_nil_iff.2 (by simpa using h.fresh o ho)
  rw [h.predicates, List.filter_append, hdeclared, List.nil_append, List.filter_map]
  exact congrArg _ (filter_eq_singleton h.nodup ho)

theorem isProbabilistic_withOperators {os : List Operator} :
    (d.withOperators os).isProbabilistic = true ↔
      ∃ o ∈ os, ∃ n ∈ o.effect.nodes [], n.IsProbabilistic := by
  simp only [withOperators, List.any_eq_true, Formula.isProbabilistic_iff []]

theorem usedTypes_determinize_subset (d : Domain) :
    (d.withOperators (d.operators.map Operator.determinize)).usedTypes ⊆ d.usedTypes := by
  have hoperator : ∀ o : Operator, o.determinize.entities ⊆ o.entities := by
    intro o e he
    have heffect := Formula.entities_getD_subset fun x =>
      Formula.entities_determinize_subset (f := o.effect) (g := x)
    simp only [Operator.entities, List.mem_append] at he ⊢
    exact he.imp_left (Or.imp_right (@heffect e))
  have hentities : (d.operators.map Operator.determinize).flatMap Operator.entities ⊆
      d.operators.flatMap Operator.entities := by
    intro e he
    obtain ⟨q, hq, he⟩ := List.mem_flatMap.1 he
    obtain ⟨o, ho, rfl⟩ := List.mem_map.1 hq
    exact List.mem_flatMap.2 ⟨o, ho, hoperator o he⟩
  intro type htype
  simp only [usedTypes, withOperators, List.mem_append] at htype ⊢
  exact htype.imp_right fun hmem => List.map_subset _ hentities hmem

end Domain

theorem Draft.wellFormed_of_build {t : Draft} {d : Domain} (ht : t.FromText)
    (h : t.build = .ok d) : d.WellFormed := by
  have hadmits := admits_of_build ht h
  have hdoubles := doubles_of_build h
  obtain ⟨all, actions, hsettle, hguards, rfl⟩ := build_eq_ok.1 h
  constructor
  case typing => exact Domain.wellTyped_of_admits ht.symbols.types hadmits
  case parameters =>
    intro o ho
    obtain ⟨scope, hdescribes⟩ := ht.operators o ho
    obtain ⟨-, hnodup, hfresh⟩ := Scope.bind_eq_ok.1 hdescribes.bind
    exact ⟨hnodup, fun e he c hc => hfresh e he c (List.mem_reverse.2 hc)⟩
  case actions =>
    intro name hname
    rcases settleActions_cases hsettle with ⟨-, hall, rfl⟩ | ⟨-, rfl, -, hdeclared⟩
    · -- operators are actions: each has added its own predicate
      obtain ⟨rfl, -⟩ := withOperatorSignatures_eq_ok hall
      obtain ⟨o, ho, rfl⟩ := List.mem_map.1 (Sorted.mem_ofList.1 hname)
      exact ⟨o.signature, List.mem_append_right _ (List.mem_map_of_mem ho), rfl⟩
    · obtain ⟨q, hq, hqname⟩ := List.any_eq_true.1 (hdeclared name hname)
      exact ⟨q, hq, of_decide_eq_true hqname⟩
  case doubles =>
    intro hactions
    have hd := hdoubles hactions
    refine ⟨hd.nodup, fun name => ?_, fun o => hd.filter_predicates⟩
    rw [← hd.actions]
    exact List.contains_iff_mem.symm
  case probabilistic => exact Domain.isProbabilistic_withOperators (d := t.finish all actions)
  case guards =>
    rintro ⟨q, hq, hname⟩ o ho times a hmem
    have hnegates := Formula.negatesAtom_timedBy times a
    exact ne_guardName_of_negatesAtom hguards ho hmem hnegates q hq hname

/-- Determinizing changes effects only, and adds nothing to them. -/
theorem Domain.WellFormed.determinize {d e : Domain} (h : d.WellFormed)
    (he : d.determinize = .ok e) : e.WellFormed := by
  obtain ⟨-, rfl⟩ := determinize_eq_ok.1 he
  constructor
  case typing => exact h.typing.of_subset rfl d.usedTypes_determinize_subset
  case parameters => exact List.forall_mem_map.2 h.parameters
  case actions => exact h.actions
  case doubles =>
    intro hactions
    obtain ⟨hnodup, hnames, hone⟩ := h.doubles hactions
    have hsame : (d.operators.map Operator.determinize).map Operator.name =
        d.operators.map Operator.name := by
      rw [List.map_map]
      rfl
    refine ⟨?_, fun name => ?_, List.forall_mem_map.2 hone⟩
    · show ((d.operators.map Operator.determinize).map Operator.name).Nodup
      rw [hsame]
      exact hnodup
    · show name ∈ d.actionPredicates ↔
        name ∈ (d.operators.map Operator.determinize).map Operator.name
      rw [hsame]
      exact hnames name
  case probabilistic => exact isProbabilistic_withOperators
  case guards => exact fun hq => List.forall_mem_map.2 (h.guards hq)

/-- The invariant holds of every domain that is read and of all that it is determinized to. -/
theorem Domain.wellFormed_of_obtained {d : Domain} (h : d.Obtained) : d.WellFormed := by
  induction h with
  | read h =>
    obtain ⟨t, ht, hbuild⟩ := draft_of_read h
    exact Draft.wellFormed_of_build ht hbuild
  | determinized _ h ih => exact ih.determinize h

def Domain.shuffling : String :=
  "(define (domain d) (:types card - thing) (:constants ace - card) " ++
    "(:predicates (held ?c - card)) (:action toss :parameters (?c - thing) " ++
      ":precondition (forall (?x - card) (held ?x)) :effect (probabilistic 0.7 (held ace))))"

theorem Domain.wellFormed_of_obtained_shuffling :
    ∃ d, (Domain.read ⟨true, false, .fastDownward⟩ shuffling).result = .ok d ∧
      d.types.usesTyping = true ∧ d.operatorsAsActions = true ∧ d.WellFormed ∧
      ∃ e, d.determinize = .ok e ∧ e.isProbabilistic = false ∧ e.WellFormed := by
  obtain ⟨d, hd, htyping, hactions, e, he, hclear⟩ :
      ∃ d, (Domain.read ⟨true, false, .fastDownward⟩ shuffling).result = .ok d ∧
        d.types.usesTyping = true ∧ d.operatorsAsActions = true ∧
        ∃ e, d.determinize = .ok e ∧ e.isProbabilistic = false := by
    decide +kernel
  have hfirst := wellFormed_of_obtained (.read hd)
  have hsecond := wellFormed_of_obtained (.determinized (.read hd) he)
  exact ⟨d, hd, htyping, hactions, hfirst, e, he, hclear, hsecond⟩

end Pddl
