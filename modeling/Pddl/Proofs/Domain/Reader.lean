import Pddl.Proofs.Domain.Draft
import Pddl.Proofs.Evaluation
import Pddl.Proofs.Signature

namespace Pddl

open Text

/-- Whether the names of the table were declared in a prepared text. -/
structure Symbols.FromText (symbols : Symbols) : Prop where
  types : symbols.types.FromText
  constants : ∃ ss, (∀ s ∈ ss, s.Plain) ∧ symbols.types.Declares .reject ss symbols.constants
  predicates : ∀ s ∈ symbols.predicates, symbols.types.Offers s
  functions : ∀ s ∈ symbols.functions, symbols.types.Offers s

namespace DomainSections

variable {s : DomainSections} {symbols : Symbols}

def read (text : String) : Except Error DomainSections := do
  let (_, trees) ← readDefinition (.ofString (prepare text))
  (empty.setAll trees).result

theorem read_eq (text : String) :
    read text = (readDefinition (excerpt text) >>= fun x => (empty.setAll x.2).result) := by
  rw [excerpt_eq]
  rfl

instance {text : String} {P : DomainSections → Prop} [DecidablePred P] :
    Decidable (∃ s, read text = .ok s ∧ P s) :=
  decidable_of_iff
    (∃ s, (readDefinition (excerpt text) >>= fun x => (empty.setAll x.2).result) = .ok s ∧ P s)
    (by rw [read_eq])

theorem symbols_eq_ok :
    s.symbols = .ok symbols ↔
      readTypes s.types = .ok symbols.types ∧
        symbols.types.readConstants s.constants = .ok symbols.constants ∧
        symbols.types.readSignatures (s.predicates.getD []) = .ok symbols.predicates ∧
        symbols.types.readSignatures (s.functions.getD []) = .ok symbols.functions := by
  simp only [DomainSections.symbols, bind_eq_ok, pure_eq_ok]
  constructor
  · rintro ⟨_, htypes, _, hconstants, _, hpredicates, _, hfunctions, rfl⟩
    exact ⟨htypes, hconstants, hpredicates, hfunctions⟩
  · rintro ⟨htypes, hconstants, hpredicates, hfunctions⟩
    exact ⟨_, htypes, _, hconstants, _, hpredicates, _, hfunctions, rfl⟩

theorem plain_of_read {text : String} (h : read text = .ok s) : s.Plain := by
  simp only [read, bind_eq_ok, Prod.exists] at h
  obtain ⟨definition, trees, hdefinition, hset⟩ := h
  exact plain_empty.setAll (plain_of_readDefinition hdefinition) hset

theorem Plain.offers {body : Option (List Tree)} {types : Types} {signatures : List Signature}
    (hbody : ∀ ts ∈ body, ∀ t ∈ ts, t.shape.Plain)
    (h : types.readSignatures (body.getD []) = .ok signatures) :
    ∀ s ∈ signatures, types.Offers s := by
  intro s hs
  obtain ⟨d, hd, hread⟩ := Types.mem_readSignatures h hs
  refine Types.offers_of_readSignature hread ?_
  cases body with
  | none => simp at hd
  | some ts => exact hbody ts rfl d hd

theorem Plain.fromText (hs : s.Plain) (h : s.symbols = .ok symbols) : symbols.FromText := by
  obtain ⟨htypes, hconstants, hpredicates, hfunctions⟩ := symbols_eq_ok.1 h
  refine ⟨Types.fromText_of_readTypes htypes hs.types, ?_, offers hs.predicates hpredicates,
    offers hs.functions hfunctions⟩
  cases hbody : s.constants with
  | none =>
    obtain hnil : [] = symbols.constants := by simpa [hbody, Types.readConstants] using hconstants
    exact ⟨[], by simp, [], .untyped [] (by simp), hnil ▸ .nil⟩
  | some body =>
    rw [hbody] at hconstants
    refine ⟨body.map Tree.shape, ?_, Types.declaredEntities_eq_ok.1 hconstants⟩
    exact List.forall_mem_map.2 (hs.constants body hbody)

end DomainSections

theorem Symbols.readOperators_eq_ok {symbols : Symbols} {ts : List Tree} {os : List Operator} :
    symbols.readOperators ts = .ok os ↔
      List.Forall₂ (fun t o => symbols.readOperator t = .ok o) ts os := by
  induction ts generalizing os with
  | nil => cases os <;> simp [readOperators]
  | cons t ts ih =>
    simp only [readOperators, bind_eq_ok, ih, pure_eq_ok, List.forall₂_cons_left_iff]
    constructor
    · rintro ⟨o, ho, os, hos, rfl⟩
      exact ⟨o, os, ho, hos, rfl⟩
    · rintro ⟨o, os, ho, hos, rfl⟩
      exact ⟨o, ho, os, hos, rfl⟩

namespace DomainSections

variable {s : DomainSections} {config : Config} {definition : Excerpt} {t : Draft}

theorem actionNames_eq_ok {names : Option (List String)} {operatorsAsActions : Bool} :
    (s.actionNames config definition).result = .ok (names, operatorsAsActions) ↔
      (∃ body ws, s.actions = some body ∧ body.map Tree.shape = ws.map .word ∧
        names = some ws ∧ operatorsAsActions = false) ∨
      (s.actions = none ∧ config.expectActionPredicates = false ∧ names = none ∧
        operatorsAsActions = config.operatorsAsActions) := by
  unfold actionNames
  cases hactions : s.actions with
  | none => by_cases hexpect : config.expectActionPredicates = true <;> simp [hexpect, eq_comm]
  | some body =>
    -- the warning comes before the words are read and does not change what they give
    have hread : ∀ r : Report (Option (List String) × Bool),
        (if config.operatorsAsActions then Report.warn .actionsDeclared >>= fun _ => r else r).result =
          r.result := by
      intro r
      split <;> simp [ok_bind]
    dsimp only
    rw [hread]
    simp only [Report.result_bind, Report.result_liftM, Report.result_pure, bind_eq_ok,
      readWords_eq_ok, Except.ok.injEq, Prod.mk.injEq]
    constructor
    · rintro ⟨ws, hws, rfl, rfl⟩
      exact Or.inl ⟨body, ws, rfl, hws, rfl, rfl⟩
    · rintro (⟨_, ws, hbody, hws, rfl, rfl⟩ | ⟨hnone, -⟩)
      · obtain rfl := Option.some.inj hbody
        exact ⟨ws, hws, rfl, rfl⟩
      · simp at hnone

/-- Whether the draft is what the sections say. -/
structure Drafts (s : DomainSections) (config : Config) (definition : Excerpt) (t : Draft) :
    Prop where
  name : s.name.map Excerpt.text = some t.name
  requirements : s.requirements = t.requirements
  symbols : s.symbols = .ok t.toSymbols
  operators : t.toSymbols.readOperators s.operators = .ok t.operators
  actions : (s.actionNames config definition).result =
    .ok (t.actionPredicates, t.operatorsAsActions)

end DomainSections

/-- A text is read when its sections give a draft that can be finished. -/
theorem Domain.read_eq_ok {config : Config} {text : String} {d : Domain} :
    (Domain.read config text).result = .ok d ↔
      config.validate = .ok () ∧ ∃ definition trees sections t,
        readDefinition (.ofString (prepare text)) = .ok (definition, trees) ∧
        (DomainSections.empty.setAll trees).result = .ok sections ∧
        sections.Drafts config definition t ∧ t.build = .ok d := by
  simp only [Domain.read, Report.result_bind, Report.result_liftM, bind_eq_ok, Prod.exists]
  constructor
  · rintro ⟨_, hvalid, definition, trees, hdefinition, sections, hsections, h⟩
    refine ⟨hvalid, definition, trees, sections, ?_⟩
    split at h
    · simp at h
    · rename_i name hname
      simp only [Report.result_bind, Report.result_liftM, bind_eq_ok, Prod.exists] at h
      obtain ⟨symbols, hsymbols, os, hos, names, operatorsAsActions, hactions, hbuild⟩ := h
      exact ⟨_, hdefinition, hsections,
        ⟨by rw [hname]; rfl, rfl, hsymbols, hos, hactions⟩, hbuild⟩
  · rintro ⟨hvalid, definition, trees, sections, t, hdefinition, hsections, hdraft, hbuild⟩
    refine ⟨_, hvalid, definition, trees, hdefinition, sections, hsections, ?_⟩
    obtain ⟨name, hname, htext⟩ := Option.map_eq_some_iff.1 hdraft.name
    simp only [hname, Report.result_bind, Report.result_liftM, bind_eq_ok, Prod.exists]
    refine ⟨_, hdraft.symbols, _, hdraft.operators, _, _, hdraft.actions, ?_⟩
    rw [htext, hdraft.requirements]
    exact hbuild

structure Draft.FromText (t : Draft) : Prop where
  name : PlainWord t.name
  requirements : ∀ w ∈ t.requirements, PlainWord w
  symbols : t.toSymbols.FromText
  operators : ∀ o ∈ t.operators, ∃ scope, t.toSymbols.Describes o scope
  actions : ∀ names ∈ t.actionPredicates, ∀ name ∈ names, PlainWord name

theorem DomainSections.Drafts.fromText {s : DomainSections} {config : Config}
    {definition : Excerpt} {t : Draft} (h : s.Drafts config definition t) (hs : s.Plain) :
    t.FromText := by
  have hsymbols := hs.fromText h.symbols
  refine ⟨?_, h.requirements ▸ hs.requirements, hsymbols, fun o ho => ?_, fun names hnames => ?_⟩
  · obtain ⟨e, he, htext⟩ := Option.map_eq_some_iff.1 h.name
    exact htext ▸ hs.name e he
  · have hread := Symbols.readOperators_eq_ok.1 h.operators
    obtain ⟨t, ht, hoperator⟩ := exists_mem_of_forall₂ hread ho
    exact Symbols.describes_of_readOperator hoperator (hs.operators t ht)
  · rcases actionNames_eq_ok.1 h.actions with ⟨body, ws, hbody, hws, heq, -⟩ | ⟨-, -, heq, -⟩
    · obtain rfl := Option.some.inj (hnames.symm.trans heq)
      exact plain_of_words hws (hs.actions body hbody)
    · exact absurd (hnames.symm.trans heq) (by simp)

/-- The tables that formulas are read against: those of domains that were read, and those that
domains are built from. -/
inductive Symbols.Produced : Symbols → Prop where
  | domain {config : Config} {text : String} {d : Domain}
      (h : (Domain.read config text).result = .ok d) : Produced d.toSymbols
  | draft {text : String} {s : DomainSections} {symbols : Symbols}
      (h : DomainSections.read text = .ok s) (hsymbols : s.symbols = .ok symbols) :
      Produced symbols

theorem Domain.draft_of_read {config : Config} {text : String} {d : Domain}
    (h : (Domain.read config text).result = .ok d) : ∃ t : Draft, t.FromText ∧ t.build = .ok d := by
  obtain ⟨-, definition, trees, sections, t, hdefinition, hsections, hdraft, hbuild⟩ :=
    Domain.read_eq_ok.1 h
  have hplain := DomainSections.plain_empty.setAll (plain_of_readDefinition hdefinition) hsections
  exact ⟨t, hdraft.fromText hplain, hbuild⟩

theorem Domain.fromText_of_read {config : Config} {text : String} {d : Domain}
    (h : (Domain.read config text).result = .ok d) : d.types.FromText := by
  obtain ⟨t, ht, hbuild⟩ := Domain.draft_of_read h
  obtain ⟨all, actions, -, -, rfl⟩ := Draft.build_eq_ok.1 hbuild
  exact ht.symbols.types

theorem Symbols.Produced.types {symbols : Symbols} (h : symbols.Produced) :
    symbols.types.FromText := by
  cases h with
  | domain h => exact Domain.fromText_of_read h
  | draft h hsymbols => exact ((DomainSections.plain_of_read h).fromText hsymbols).types

/-- A formula that is read from an excerpt of a prepared text is read back from its own text. -/
theorem Symbols.readFormula_prepare_text {symbols : Symbols} (hsymbols : symbols.Produced)
    {scope : Scope} {mode : Mode} {what text : String} {e : Excerpt} {f : Formula}
    (hexcerpt : e.chars <:+: (prepare text).toList)
    (h : symbols.readFormula what scope mode e.tree = .ok f)
    (hnumbers : ∀ x ∈ f.numbers, x.ReadsBack) :
    symbols.readFormula what scope mode (Excerpt.ofString (prepare f.text)).tree = .ok f := by
  have hsettled : ∀ c ∈ e.chars, Settled c := by
    intro c hc
    have hmem := hexcerpt.subset hc
    exact settled_of_mem_prepareChars (by simpa [prepare] using hmem)
  exact readFormula_text h (Excerpt.plain_tree hsettled) hsymbols.types.separate hnumbers

def Domain.counting : String := "(define (domain d) (:predicates (p ?x)) (:functions (c)))"

theorem Symbols.readFormula_prepare_text_counting : ∃ (d : Domain) (f : Formula),
    d.readFormula "a formula" [] .effect (Excerpt.ofString (prepare "(Increase (c) 2)")).tree =
      .ok f ∧
    d.readFormula "a formula" [] .effect (Excerpt.ofString (prepare f.text)).tree = .ok f := by
  obtain ⟨d, hd, hsymbols⟩ : ∃ d, (Domain.read .default Domain.counting).result = .ok d ∧
      d.toSymbols = ⟨.untyped, [⟨"p", ["default"]⟩], [⟨"c", []⟩], []⟩ := by
    decide +kernel
  obtain ⟨f, hf, hnumbers⟩ : ∃ f,
      readFormula ⟨.untyped, [⟨"p", ["default"]⟩], [⟨"c", []⟩], []⟩ "a formula" [] .effect
        (Excerpt.ofString (prepare "(Increase (c) 2)")).tree = .ok f ∧
          ∀ x ∈ f.numbers, x.ReadsBack := by
    decide +kernel
  have hexcerpt : (Excerpt.ofString (prepare "(Increase (c) 2)")).chars <:+:
      (prepare "(Increase (c) 2)").toList := List.infix_refl _
  rw [← hsymbols] at hf
  exact ⟨d, f, hf, readFormula_prepare_text (.domain hd) hexcerpt hf hnumbers⟩

end Pddl
