import Pddl.Proofs.Domain.RoundTrip

namespace Pddl

open Text

namespace Draft

variable {t : Draft} {d : Domain} {config : Config} {definition : Excerpt}
  {original sections : DomainSections}

theorem operatorsAsActions_of_build (h : t.build = .ok d) :
    d.operatorsAsActions = t.operatorsAsActions := by
  obtain ⟨all, actions, -, -, rfl⟩ := build_eq_ok.1 h
  rfl

theorem actions_of_empty_section (hdraft : original.Drafts config definition t)
    (hempty : original.actions = some []) (h : t.build = .ok d) :
    d.operatorsAsActions = false ∧ d.actionPredicates = [] := by
  obtain ⟨all, actions, hsettle, -, rfl⟩ := build_eq_ok.1 h
  rcases DomainSections.actionNames_eq_ok.1 hdraft.actions with
    ⟨body, ws, hbody, hws, hnames, hoperators⟩ | ⟨hnone, -⟩
  · obtain rfl := Option.some.inj (hempty.symm.trans hbody)
    obtain rfl : ws = [] := by simpa using hws
    rcases settleActions_cases hsettle with ⟨htrue, -⟩ | ⟨-, -, rfl, -⟩
    · exact absurd (hoperators.symm.trans htrue) (by simp)
    · exact ⟨hoperators, by simp [finish, hnames, Sorted.ofList, Sorted.insertAll]⟩
  · simp [hempty] at hnone

/-- Without a section in the text, the options say where action predicates come from. -/
theorem actionNames_of_empty_section {names : Option (List String)} {operatorsAsActions : Bool}
    (hdraft : original.Drafts config definition t) (hempty : original.actions = some [])
    (h : t.build = .ok d) (hsections : sections.Follows d.outline) (definition' : Excerpt) :
    (sections.actionNames config definition').result = .ok (names, operatorsAsActions) ↔
      config.expectActionPredicates = false ∧ names = none ∧
        operatorsAsActions = config.operatorsAsActions := by
  obtain ⟨hoperators, hactions⟩ := actions_of_empty_section hdraft hempty h
  have hnone : sections.actions = none := by
    have hwritten := hsections.actions
    simpa [Domain.outline, hoperators, hactions] using hwritten
  simp [DomainSections.actionNames_eq_ok, hnone]

end Draft

namespace Domain

variable {config : Config} {text : String} {d : Domain}

theorem follows_text (h : d.IsWritten) : ∃ definition trees sections,
    readDefinition (.ofString (prepare d.text)) = .ok (definition, trees) ∧
      (DomainSections.empty.setAll trees).result = .ok sections ∧ sections.Follows d.outline := by
  obtain ⟨definition, trees, hdefinition, hshapes⟩ := readDefinition_of_writes (writes_text h)
  obtain ⟨sections, hsections, hfollows⟩ := DomainSections.follows_of_shapes
    d.headed_outline_operators hshapes
  exact ⟨definition, trees, sections, hdefinition, hsections, hfollows⟩

/-- A domain that was read is read back from its text with the same action predicates, unless it has
a section for them that names none, and the options do not let that be left out. -/
theorem read_text_actions (h : (Domain.read config text).result = .ok d)
    (hconstants : ∀ e ∈ d.constants, e.isVariable = false)
    (hnumbers : ∀ x ∈ d.numbers, x.ReadsBack) {original : DomainSections}
    (horiginal : DomainSections.read text = .ok original) :
    (∃ e, (Domain.read config d.text).result = .ok e ∧ e.actionPredicates = d.actionPredicates ∧
        e.operatorsAsActions = d.operatorsAsActions) ↔
      (original.actions = some [] →
        config.operatorsAsActions = false ∧ config.expectActionPredicates = false) := by
  obtain ⟨hvalid, definition, trees, sections, t, hdefinition, hsections, hdraft, hbuild⟩ :=
    read_eq_ok.1 h
  have hread : DomainSections.read text = .ok sections := by
    simp only [DomainSections.read, hdefinition, ok_bind, hsections]
  obtain rfl := Except.ok.inj (horiginal.symm.trans hread)
  have ht := hdraft.fromText (DomainSections.plain_of_read hread)
  have hback : t.Recovers := by
    obtain ⟨all, actions, -, -, rfl⟩ := Draft.build_eq_ok.1 hbuild
    exact ⟨hconstants, fun o ho x hx => hnumbers x (List.mem_flatMap.2 ⟨o, ho, hx⟩)⟩
  obtain ⟨definition', trees', sections', hdefinition', hsections', hfollows⟩ :=
    follows_text (Draft.isWritten_of_build ht hback hbuild)
  -- the sections of the text are those of the outline, where an empty one is missing
  constructor
  · rintro ⟨e, he, -, hoperators⟩ hempty
    obtain ⟨-, _, _, _, u, hdefinition₂, hsections₂, hdraft₂, hbuild₂⟩ := read_eq_ok.1 he
    obtain ⟨rfl, rfl⟩ := Prod.mk.inj (Except.ok.inj (hdefinition'.symm.trans hdefinition₂))
    obtain rfl := Except.ok.inj (hsections'.symm.trans hsections₂)
    obtain ⟨hexpect, -, hconfig⟩ :=
      (Draft.actionNames_of_empty_section hdraft hempty hbuild hfollows _).1 hdraft₂.actions
    refine ⟨?_, hexpect⟩
    rw [← hconfig, ← Draft.operatorsAsActions_of_build hbuild₂, hoperators]
    exact (Draft.actions_of_empty_section hdraft hempty hbuild).1
  · intro hoptions
    have hnames : (sections'.actionNames config definition').result =
        .ok ((d.redraft d.types).actionPredicates, d.operatorsAsActions) := by
      by_cases hempty : original.actions = some []
      · obtain ⟨hoperators, hactions⟩ := Draft.actions_of_empty_section hdraft hempty hbuild
        obtain ⟨hconfig, hexpect⟩ := hoptions hempty
        refine (Draft.actionNames_of_empty_section hdraft hempty hbuild hfollows _).2
          ⟨hexpect, ?_, ?_⟩
        · simp [redraft, hactions]
        · rw [hoperators, hconfig]
      · exact Draft.actionNames_of_follows definition' hdraft hempty hbuild hfollows d.types
    obtain ⟨u, -, -, hredraft⟩ := Draft.drafts_of_follows ht hback hbuild hnames hfollows
    exact ⟨d.expanded u, read_eq_ok.2 ⟨hvalid, definition', trees', sections', d.redraft u,
      hdefinition', hsections', hredraft, Draft.build_redraft hbuild u⟩, rfl, rfl⟩

def preferring : String :=
  "(define (domain d) (:predicates (p)) (:actions p) (:action a))"

theorem read_text_actions_preferring :
    ∃ d, (Domain.read ⟨true, false, .fastDownward⟩ preferring).result = .ok d ∧
      ∃ e, (Domain.read ⟨true, false, .fastDownward⟩ d.text).result = .ok e ∧
        e.actionPredicates = d.actionPredicates ∧ e.operatorsAsActions = d.operatorsAsActions := by
  obtain ⟨d, hd, hconstants, hnumbers⟩ :
      ∃ d, (Domain.read ⟨true, false, .fastDownward⟩ preferring).result = .ok d ∧
        (∀ e ∈ d.constants, e.isVariable = false) ∧ ∀ x ∈ d.numbers, x.ReadsBack := by
    decide +kernel
  obtain ⟨original, horiginal, hnonempty⟩ : ∃ s, DomainSections.read preferring = .ok s ∧
      (s.actions.map List.isEmpty) = some false := by
    decide +kernel
  refine ⟨d, hd, (read_text_actions hd hconstants hnumbers horiginal).2 fun hempty => ?_⟩
  simp [hempty] at hnonempty

def idle : String := "(define (domain d) (:actions))"

/-- Its text lacks the section: where one is expected it cannot be read again, and where operators
may be action predicates they are. -/
theorem not_read_text_actions_idle :
    (∃ d, (Domain.read ⟨false, true, .fastDownward⟩ idle).result = .ok d ∧ d.numbers = [] ∧
      d.constants = [] ∧ ∀ e, (Domain.read ⟨false, true, .fastDownward⟩ d.text).result ≠ .ok e) ∧
    ∃ d, (Domain.read ⟨true, false, .fastDownward⟩ idle).result = .ok d ∧ d.numbers = [] ∧
      d.constants = [] ∧ ∃ e, (Domain.read ⟨true, false, .fastDownward⟩ d.text).result = .ok e ∧
        d.operatorsAsActions = false ∧ e.operatorsAsActions = true := by
  refine ⟨?_, by decide +kernel⟩
  obtain ⟨d, hd, hnumbers, hconstants, herror⟩ :
      ∃ d, (Domain.read ⟨false, true, .fastDownward⟩ idle).result = .ok d ∧ d.numbers = [] ∧
        d.constants = [] ∧
          (Domain.read ⟨false, true, .fastDownward⟩ d.text).result.isOk = false := by
    decide +kernel
  refine ⟨d, hd, hnumbers, hconstants, fun e he => ?_⟩
  rw [he] at herror
  simp [Except.isOk, Except.toBool] at herror

end Domain

end Pddl
