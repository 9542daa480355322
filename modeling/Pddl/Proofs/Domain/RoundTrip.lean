import Pddl.Proofs.Domain.Outline
import Pddl.Proofs.Domain.Reader

namespace Pddl

open Text

namespace Domain

def numbers (d : Domain) : List Number := d.operators.flatMap Operator.numbers

def outline (d : Domain) : DomainOutline :=
  { name := d.name
    requirements := if d.requirements.isEmpty then none else some d.requirements
    types := if d.types.usesTyping then some d.types.shapes else none
    constants := if d.constants.isEmpty then none else some (d.constants.flatMap Entity.shapes)
    predicates := some (d.writtenPredicates.map Signature.shape)
    functions := if d.functions.isEmpty then none else some (d.functions.map Signature.shape)
    actions :=
      if d.operatorsAsActions || d.actionPredicates.isEmpty then none
      else some (d.actionPredicates.map .word)
    operators := d.operators.map (·.expanded.shape) }

/-- Whether every part of the domain is written with its own words. -/
structure IsWritten (d : Domain) : Prop where
  name : PlainWord d.name
  requirements : ∀ w ∈ d.requirements, PlainWord w
  types : d.types.FromText
  constants : ∀ e ∈ d.constants, e.Plain
  predicates : ∀ s ∈ d.writtenPredicates, d.types.Offers s
  functions : ∀ s ∈ d.functions, d.types.Offers s
  actions : ∀ w ∈ d.actionPredicates, PlainWord w
  operators : ∀ o ∈ d.operators, o.IsWritten

theorem segment_unless {c : Bool} {s keyword : String} {ss : List Shape}
    (h : Segment s [.list (.word keyword :: ss)]) :
    Segment (if c then "" else s) (sectionShapes keyword (if c then none else some ss)) := by
  cases c with
  | true => exact .empty
  | false => exact h

variable {d : Domain}

theorem segment_requirements (h : d.IsWritten) :
    Segment d.requirementsText
      (sectionShapes ":requirements" (d.outline.requirements.map (List.map .word))) := by
  have hshape : d.outline.requirements.map (List.map Shape.word) =
      if d.requirements.isEmpty then none else some (d.requirements.map .word) := by
    rw [outline, apply_ite (Option.map _)]
    rfl
  rw [hshape, requirementsText]
  exact segment_unless (.of_line (by simp) (by decide) (.plain_words h.requirements))

theorem segment_types (h : d.IsWritten) :
    Segment d.types.text (sectionShapes ":types" d.outline.types) := by
  have hshape : sectionShapes ":types" d.outline.types = d.types.sections := by
    rw [outline, Types.sections]
    cases d.types.usesTyping <;> rfl
  exact hshape ▸ Types.segment_text h.types

theorem segment_constants (h : d.IsWritten) :
    Segment d.constantsText (sectionShapes ":constants" d.outline.constants) :=
  segment_unless (.of_line (by simp) (by decide) (Entity.spells_texts h.constants))

theorem segment_predicates (h : d.IsWritten) :
    Segment d.predicatesText (sectionShapes ":predicates" d.outline.predicates) := by
  unfold predicatesText
  exact .of_block (by simp) (by decide) (Signature.segment_lines h.predicates).spells

theorem segment_functions (h : d.IsWritten) :
    Segment d.functionsText (sectionShapes ":functions" d.outline.functions) :=
  segment_unless (.of_block (by simp) (by decide) (Signature.segment_lines h.functions).spells)

theorem segment_actions (h : d.IsWritten) :
    Segment d.actionsText (sectionShapes ":actions" d.outline.actions) :=
  segment_unless (.of_line (by simp) (by decide) (.plain_words h.actions))

theorem segment_operators (h : d.IsWritten) : Segment d.operatorsText d.outline.operators := by
  have hshape : d.outline.operators = (d.operators.map fun o => [o.expanded.shape]).flatten := by
    rw [← List.flatMap_def, ← List.map_eq_flatMap]
    rfl
  rw [hshape, operatorsText]
  exact .concat (forall₂_map_map fun o ho => Operator.segment_text (h.operators o ho))

def sectionsText (d : Domain) : String :=
  d.requirementsText ++ (d.types.text ++ (d.constantsText ++ (d.predicatesText ++
    (d.functionsText ++ (d.actionsText ++ d.operatorsText)))))

theorem writes_text (h : d.IsWritten) : Writes d.text (.word "define" :: d.outline.shapes) := by
  have hsections : Segment d.sectionsText _ :=
    (segment_requirements h).append ((segment_types h).append ((segment_constants h).append
      ((segment_predicates h).append ((segment_functions h).append
        ((segment_actions h).append (segment_operators h))))))
  have hdomain : PlainWord "domain" := by decide
  have hname := (Spells.single_plain hdomain).append_blank (.single_plain h.name)
  have hrest := Spells.list hname (.gap (Or.inr (Or.inr rfl)) hsections.spells)
  refine .of_keyword ?_ (by decide) hrest
  unfold text sectionsText
  simp

end Domain

theorem Types.Declares.readConstants {t u : Types} {ss : List Shape} {es : List Entity}
    (h : t.Declares .reject ss es) (hseparate : t.Separate) (hagrees : t.Agrees u)
    {body : Option (List Tree)}
    (hbody : body.map (List.map Tree.shape) =
      if es.isEmpty then none else some (es.flatMap Entity.shapes)) :
    u.readConstants body = .ok es := by
  cases body with
  | none =>
    cases es with
    | nil => rfl
    | cons e es => simp at hbody
  | some trees =>
    split at hbody
    · simp at hbody
    · have hes := hagrees.declares (h.shapes hseparate)
      exact declaredEntities_eq_ok.2 (Option.some.inj hbody ▸ hes)

namespace Symbols.FromText

variable {symbols : Symbols}

theorem constant (h : symbols.FromText) (hnames : ∀ e ∈ symbols.constants, e.isVariable = false) :
    symbols.Constant := by
  obtain ⟨ss, hss, hconstants⟩ := h.constants
  exact ⟨hconstants.declarable, hconstants.plain hss, hnames⟩

end Symbols.FromText

namespace Draft

variable {t : Draft} {d : Domain} {config : Config} {definition : Excerpt}
  {sections : DomainSections}

/-- The constants of a draft and the numbers in its operators are read back from their texts. -/
structure Recovers (t : Draft) : Prop where
  constants : ∀ e ∈ t.constants, e.isVariable = false
  numbers : ∀ o ∈ t.operators, ∀ x ∈ o.numbers, x.ReadsBack

theorem isWritten_of_build (ht : t.FromText) (hback : t.Recovers) (h : t.build = .ok d) :
    d.IsWritten := by
  have hwritten := writtenPredicates_of_build h
  have hguard := fun o ho => predicate?_guardName (o := o) h ho
  obtain ⟨all, actions, hsettle, -, rfl⟩ := build_eq_ok.1 h
  obtain ⟨ss, hss, hconstants⟩ := ht.symbols.constants
  refine ⟨ht.name, ht.requirements, ht.symbols.types, hconstants.plain hss, ?_,
    ht.symbols.functions, fun name hname => ?_, fun o ho => ?_⟩
  · rw [hwritten]
    exact ht.symbols.predicates
  · rcases settleActions_cases hsettle with ⟨-, -, rfl⟩ | ⟨-, -, rfl, -⟩
    · obtain ⟨o, ho, rfl⟩ := List.mem_map.1 (Sorted.mem_of_mem_ofList hname)
      obtain ⟨scope, ho⟩ := ht.operators o ho
      exact ho.name
    · have hmem := Sorted.mem_of_mem_ofList hname
      cases hnames : t.actionPredicates with
      | none => simp [hnames] at hmem
      | some names => exact ht.actions names hnames name (by simpa [hnames] using hmem)
  · obtain ⟨scope, hdescribes⟩ := ht.operators o ho
    exact hdescribes.isWritten (ht.symbols.constant hback.constants) ht.symbols.types.separate
      (hguard o ho) (hback.numbers o ho)

theorem symbols_of_follows (ht : t.FromText) (h : t.build = .ok d)
    (hsections : sections.Follows d.outline) :
    ∃ u, u.Agrees d.types ∧ (d.types.hierarchy = [] → u = d.types) ∧
      sections.symbols = .ok (d.redraft u).toSymbols ∧
        t.toSymbols.Agrees (d.redraft u).toSymbols := by
  have hwritten := writtenPredicates_of_build h
  obtain ⟨all, actions, -, -, rfl⟩ := build_eq_ok.1 h
  obtain ⟨u, htypes, hagrees, hflat⟩ := ht.symbols.types.readTypes hsections.types
  have hseparate := hagrees.symm.separate ht.symbols.types.separate
  obtain ⟨ss, -, hconstants⟩ := ht.symbols.constants
  refine ⟨u, hagrees, hflat, DomainSections.symbols_eq_ok.2 ⟨htypes, ?_, ?_, ?_⟩,
    ⟨hagrees.symm, hwritten.symm, rfl, rfl⟩⟩
  · exact hconstants.readConstants ht.symbols.types.separate hagrees.symm hsections.constants
  · refine Signature.readSignatures_section false (fun s hs => ?_) hseparate hsections.predicates
    have hold : s ∈ t.predicates := hwritten ▸ hs
    exact hagrees.symm.offers (ht.symbols.predicates s hold)
  · exact Signature.readSignatures_section true
      (fun s hs => hagrees.symm.offers (ht.symbols.functions s hs)) hseparate hsections.functions

/-- The action predicates are given in the way in which they were given first. -/
theorem actionNames_of_follows {original : DomainSections} (definition' : Excerpt)
    (hdraft : original.Drafts config definition t) (hnonempty : original.actions ≠ some [])
    (h : t.build = .ok d) (hsections : sections.Follows d.outline) (types : Types) :
    (sections.actionNames config definition').result =
      .ok ((d.redraft types).actionPredicates, d.operatorsAsActions) := by
  obtain ⟨all, actions, hsettle, -, rfl⟩ := build_eq_ok.1 h
  have hwritten := hsections.actions
  rcases DomainSections.actionNames_eq_ok.1 hdraft.actions with
    ⟨body, ws, hbody, hws, hnames, hoperators⟩ | ⟨-, hexpect, hnames, hoperators⟩
  · rcases settleActions_cases hsettle with ⟨htrue, -⟩ | ⟨-, -, rfl, -⟩
    · simp [hoperators] at htrue
    -- the section names something, so it is written
    have hne : Sorted.ofList ws ≠ [] := by
      obtain ⟨tree, rest, rfl⟩ := List.exists_cons_of_ne_nil fun hnil =>
        hnonempty (hbody.trans (congrArg some hnil))
      obtain ⟨w, ws, rfl, -⟩ := List.map_eq_cons_iff.1 hws.symm
      exact List.ne_nil_of_mem (Sorted.mem_ofList.2 List.mem_cons_self)
    have hempty : (Sorted.ofList ws).isEmpty = false := by simpa using hne
    simp only [Domain.outline, finish, hoperators, hnames, Option.getD_some, hempty, Bool.false_or,
      Bool.false_eq_true, if_false] at hwritten
    obtain ⟨body', hbody', hshapes⟩ := Option.map_eq_some_iff.1 hwritten
    refine DomainSections.actionNames_eq_ok.2 (Or.inl ⟨body', _, hbody', hshapes, ?_, hoperators⟩)
    simp only [Domain.redraft, finish, hoperators, hnames, Option.getD_some, hempty, Bool.false_or,
      Bool.false_eq_true, if_false]
  · -- without a section none is written, and the options decide again
    have hnone : (t.operatorsAsActions || actions.isEmpty) = true := by
      rcases settleActions_cases hsettle with ⟨htrue, -⟩ | ⟨-, -, rfl, -⟩
      · rw [htrue, Bool.true_or]
      · rw [hnames, Bool.or_eq_true]
        exact Or.inr rfl
    simp only [Domain.outline, finish, hnone, if_true, Option.map_eq_none_iff] at hwritten
    refine DomainSections.actionNames_eq_ok.2 (Or.inr ⟨hwritten, hexpect, ?_, hoperators⟩)
    simp only [Domain.redraft, finish, hnone, if_true]

theorem drafts_of_follows (ht : t.FromText) (hback : t.Recovers) (h : t.build = .ok d)
    (hactions : (sections.actionNames config definition).result =
      .ok ((d.redraft d.types).actionPredicates, d.operatorsAsActions))
    (hsections : sections.Follows d.outline) :
    ∃ u, u.Agrees d.types ∧ (d.types.hierarchy = [] → u = d.types) ∧
      sections.Drafts config definition (d.redraft u) := by
  obtain ⟨u, hagrees, hflat, hsymbols, hsame⟩ := symbols_of_follows ht h hsections
  have hguard := fun o ho => predicate?_guardName (o := o) h ho
  have hoperators : t.operators = d.operators := by
    obtain ⟨all, actions, -, -, rfl⟩ := build_eq_ok.1 h
    rfl
  refine ⟨u, hagrees, hflat, hsections.name, ?_, hsymbols, ?_, hactions⟩
  · rw [hsections.requirements]
    cases hempty : d.requirements with
    | nil => simp [Domain.outline, Domain.redraft, hempty]
    | cons w ws => simp [Domain.outline, Domain.redraft, hempty]
  · refine Symbols.readOperators_eq_ok.2 (List.forall₂_map_right_iff.2 ?_)
    refine forall₂_of_map_eq hsections.operators fun o ho tree htree => ?_
    rw [← hoperators] at ho
    obtain ⟨scope, hdescribes⟩ := ht.operators o ho
    -- the table that is read differs from the first in the order of types alone
    have hconstant := ht.symbols.constant hback.constants
    have hrecovers := (hdescribes.of_agrees hsame).recovers (hconstant.of_agrees hsame)
      (hsame.types.separate ht.symbols.types.separate) (fun f hf hexpands => ?_)
      (hback.numbers o ho)
    · exact Symbols.readOperator_of_shape hrecovers htree
    · rw [Symbols.predicate?, ← hsame.predicates]
      exact hguard o ho f hf hexpands

end Draft

namespace Domain

/-- Whether `e` is the domain `d` with the negations of its preconditions expanded. The types are the
same, but may be declared in another order. -/
structure Expands (d e : Domain) : Prop where
  name : e.name = d.name
  requirements : e.requirements = d.requirements
  types : e.types.Agrees d.types
  constants : e.constants = d.constants
  predicates : e.predicates = d.predicates
  functions : e.functions = d.functions
  actionPredicates : e.actionPredicates = d.actionPredicates
  operatorsAsActions : e.operatorsAsActions = d.operatorsAsActions
  isProbabilistic : e.isProbabilistic = d.isProbabilistic
  operators : e.operators = d.operators.map Operator.expanded
  text : e.text = d.text

theorem text_expanded {d : Domain} {types : Types} (h : types.Agrees d.types)
    (hflat : d.types.hierarchy = [] → types = d.types) : (d.expanded types).text = d.text := by
  have htypes : (d.expanded types).types.text = d.types.text := h.text hflat
  have hoperators : (d.expanded types).operatorsText = d.operatorsText := by
    unfold operatorsText expanded
    simp only [List.map_map, Function.comp_def, Operator.text_expanded]
  have hrequirements : (d.expanded types).requirementsText = d.requirementsText := rfl
  have hconstants : (d.expanded types).constantsText = d.constantsText := rfl
  have hpredicates : (d.expanded types).predicatesText = d.predicatesText := rfl
  have hfunctions : (d.expanded types).functionsText = d.functionsText := rfl
  have hactions : (d.expanded types).actionsText = d.actionsText := rfl
  unfold text
  rw [htypes, hoperators, hrequirements, hconstants, hpredicates, hfunctions, hactions]
  rfl

theorem headed_outline_operators (d : Domain) :
    ∀ s ∈ d.outline.operators, s.isOperator = true := by
  rw [outline, List.forall_mem_map]
  intro o _
  refine Shape.isOperator_iff.2 ⟨o.expanded.keyword, _, rfl, ?_⟩
  unfold Operator.keyword
  split
  · exact Or.inr rfl
  · exact Or.inl rfl

/-- A domain that was read is read back from its text, up to the expansion of negations. -/
theorem read_text_expands {config : Config} {text : String} {d : Domain}
    (h : (Domain.read config text).result = .ok d)
    (hconstants : ∀ e ∈ d.constants, e.isVariable = false)
    (hactions : ∀ sections, DomainSections.read text = .ok sections → sections.actions ≠ some [])
    (hnumbers : ∀ x ∈ d.numbers, x.ReadsBack) :
    ∃ e, (Domain.read config d.text).result = .ok e ∧ d.Expands e := by
  obtain ⟨hvalid, definition, trees, sections, t, hdefinition, hsections, hdraft, hbuild⟩ :=
    read_eq_ok.1 h
  have hread : DomainSections.read text = .ok sections := by
    simp only [DomainSections.read, hdefinition, ok_bind, hsections]
  have ht := hdraft.fromText (DomainSections.plain_of_read hread)
  have hback : t.Recovers := by
    obtain ⟨all, actions, -, -, rfl⟩ := Draft.build_eq_ok.1 hbuild
    exact ⟨hconstants, fun o ho x hx => hnumbers x (List.mem_flatMap.2 ⟨o, ho, hx⟩)⟩
  have hwrites := writes_text (Draft.isWritten_of_build ht hback hbuild)
  obtain ⟨definition', trees', hdefinition', hshapes⟩ := readDefinition_of_writes hwrites
  obtain ⟨sections', hsections', hfollows⟩ := DomainSections.follows_of_shapes
    d.headed_outline_operators hshapes
  have hnames := Draft.actionNames_of_follows definition' hdraft (hactions sections hread) hbuild
    hfollows d.types
  obtain ⟨u, hagrees, hflat, hredraft⟩ := Draft.drafts_of_follows ht hback hbuild hnames hfollows
  refine ⟨d.expanded u, read_eq_ok.2 ⟨hvalid, definition', trees', sections', d.redraft u,
    hdefinition', hsections', hredraft, Draft.build_redraft hbuild u⟩, ?_⟩
  exact ⟨rfl, rfl, hagrees, rfl, rfl, rfl, rfl, rfl, rfl, rfl, text_expanded hagrees hflat⟩

def switching : String :=
  "(define (domain d) (:predicates (p ?x)) (:functions (c))
    (:action a :parameters (?x) :precondition (not (p ?x)) :effect (increase (c) 2)))"

theorem read_text_expands_switching :
    ∃ d e, (Domain.read .default switching).result = .ok d ∧
      (Domain.read .default d.text).result = .ok e ∧ d.Expands e := by
  obtain ⟨d, hd, hconstants, hnumbers⟩ : ∃ d, (Domain.read .default switching).result = .ok d ∧
      (∀ e ∈ d.constants, e.isVariable = false) ∧ ∀ x ∈ d.numbers, x.ReadsBack := by
    decide +kernel
  obtain ⟨s, hs, hactions⟩ : ∃ s, DomainSections.read switching = .ok s ∧
      s.actions.isNone = true := by
    decide +kernel
  have hnamed : ∀ sections, DomainSections.read switching = .ok sections →
      sections.actions ≠ some [] := by
    intro sections hsections
    obtain rfl := Except.ok.inj (hs.symm.trans hsections)
    simp [Option.isNone_iff_eq_none.1 hactions]
  obtain ⟨e, he, hexpands⟩ := read_text_expands hd hconstants hnamed hnumbers
  exact ⟨d, e, hd, he, hexpands⟩

end Domain

end Pddl
