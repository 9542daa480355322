import Pddl.Proofs.Domain.Blame
import Pddl.Proofs.Evaluation
import Pddl.Proofs.Problem.Sections

namespace Pddl

open Text

variable {R : Error → Prop} {t : Tree} {ts : List Tree}

namespace ProblemSections

def trees (s : ProblemSections) : List Tree := s.init ++ s.goal.toList

variable {s r : ProblemSections} {types : Types} {entry keyword : Tree} {body : List Tree}

theorem blames_singleName (hentry : entry.Blamed R) (hbody : ∀ t ∈ body, t.Blamed R) :
    Blames R (singleName entry body) := by
  unfold singleName
  split
  · rw [List.forall_mem_singleton] at hbody
    exact (hbody.expectWord _).bind fun word _ => blames_pure _
  · exact hentry.blames _

theorem blames_set (hentry : entry.Blamed R) (hbody : ∀ t ∈ body, t.Blamed R) :
    Blames R (s.set types entry keyword body).result := by
  unfold set
  dsimp only
  split
  · exact blames_ok _
  · exact blames_ok _
  · split
    case h_1 =>
      rw [Report.result_bind]
      exact (blames_singleName hentry hbody).bind fun name _ => blames_pure _
    case h_2 =>
      rw [Report.result_bind]
      exact (blames_singleName hentry hbody).bind fun name _ => blames_pure _
    case h_3 =>
      rw [Report.result_bind]
      exact (types.blames_entities .adHoc hbody).bind fun objects _ => blames_pure _
    case h_5 =>
      split
      · rw [List.forall_mem_singleton] at hbody
        rw [Report.result_bind]
        exact (hbody.expectList _).bind fun goal _ => blames_pure _
      · exact hentry.blames _
    all_goals exact blames_ok _

theorem Stores.trees_subset (h : s.Stores types keyword body r) : r.trees ⊆ body ++ s.trees := by
  intro t ht
  cases h <;>
    simp only [trees, Option.toList_some, List.mem_append, List.mem_singleton] at ht ⊢ <;>
    tauto

variable (types) in
/-- Storing sections blames nothing but these, and all that is stored is part of them. -/
theorem blames_setAll (hs : ∀ t ∈ s.trees, t.Blamed R) (hts : ∀ t ∈ ts, t.Blamed R) :
    Blames R (s.setAll types ts).result ∧
      ∀ r, (s.setAll types ts).result = .ok r → ∀ t ∈ r.trees, t.Blamed R := by
  rw [setAll_eq_storeAll]
  exact blames_storeAll blames_set
    (fun h => List.subset_cons_of_subset _ (stores_of_set h).trees_subset) hs hts

end ProblemSections

namespace Domain

variable (d : Domain) (scope : Scope)

theorem blames_readFluent {entry : Tree} {args : List Tree} (hentry : entry.Blamed R)
    (hargs : ∀ t ∈ args, t.Blamed R) : Blames R (d.readFluent scope entry args) := by
  unfold readFluent
  split
  · simp only [List.forall_mem_cons] at hargs
    refine (hargs.1.expectItems _).bind fun inside _ => ?_
    split
    · exact blames_pure _
    · refine (d.blames_readTerm scope hargs.1).bind fun term _ => ?_
      refine (hargs.2.1.expectWord _).bind fun word hword => ?_
      exact (blames_readNumber (hargs.2.1.of_expectWord hword)).bind fun value _ => blames_pure _
  · exact hentry.blames _

theorem blames_readFact (h : t.Blamed R) : Blames R (d.readFact scope t) := by
  refine (h.expectItems _).bind fun items hitems => ?_
  have hblamed := h.of_expectItems hitems
  split
  · exact h.blames _
  · rw [List.forall_mem_cons] at hblamed
    refine (hblamed.1.expectWord _).bind fun head _ => ?_
    split
    · exact d.blames_readFluent scope h hblamed.2
    · split
      · exact blames_pure _
      · exact (d.blames_readAtom scope head hblamed.2).bind fun atom _ => blames_pure _

theorem blames_readFacts (h : ∀ t ∈ ts, t.Blamed R) : Blames R (d.readFacts scope ts) := by
  induction ts with
  | nil => exact blames_ok _
  | cons t ts ih =>
    obtain ⟨ht, hts⟩ := List.forall_mem_cons.1 h
    exact (d.blames_readFact scope ht).bind fun fact _ => (ih hts).bind fun facts _ => blames_pure _

end Domain

theorem Problem.blames_read (d : Domain) (text : String) :
    Blames (Excerpt.ofString (prepare text)).Refuses (Problem.read d text).result := by
  obtain ⟨hread, hparts⟩ := blames_readDefinition (.ofString (prepare text))
  simp only [Problem.read, Report.result_bind, Report.result_liftM]
  refine hread.bind fun (definition, trees) h => ?_
  obtain ⟨hdefinition, htrees⟩ := hparts definition trees h
  obtain ⟨hset, hstored⟩ := ProblemSections.blames_setAll
    (s := .empty) d.types (by simp [ProblemSections.trees, ProblemSections.empty]) htrees
  refine hset.bind fun sections hsections => ?_
  have hblamed := hstored sections hsections
  simp only [ProblemSections.trees, List.forall_mem_append, Option.mem_toList] at hblamed
  obtain ⟨hinit, hgoal⟩ := hblamed
  split
  · exact hdefinition.blames _
  · exact hdefinition.blames _
  · split
    · exact blames_placeless (by simp)
    · simp only [Report.result_bind, Report.result_liftM]
      exact (d.blames_readFacts _ hinit).bind fun facts _ =>
        (d.blames_readOptional _ _ hgoal).bind fun goal _ => blames_pure _

/-- Places are true. A part of a text, at any depth, stands in the text behind as many bytes, line
feeds and characters of its line as its place says; an error that refuses the text is of a place
counted in the same way; and whenever a reader of formulas, operators, domains or problems names a
line and a column, it is with such an error. -/
theorem Excerpt.places_exact (s : String) :
    (∀ e, (ofString s).Reaches e →
      ∃ before after, s.toList = before ++ (e.chars ++ after) ∧ e.start.IsBehind before) ∧
    (∀ err, (ofString s).Refuses err →
      ∃ (before after : List Char) (p : Position) (fault : Fault), s.toList = before ++ after ∧
        p.IsBehind before ∧ err = .malformed p.line p.column fault) ∧
    (∀ symbols : Symbols, ∀ e, (ofString s).Reaches e →
      Blames (ofString s).Refuses (symbols.readOperator e.tree) ∧
      ∀ what scope mode, Blames (ofString s).Refuses (symbols.readFormula what scope mode e.tree)) ∧
    ∀ text, s = prepare text →
      (∀ config, Blames (ofString s).Refuses (Domain.read config text).result) ∧
      ∀ d, Blames (ofString s).Refuses (Problem.read d text).result := by
  refine ⟨fun e h => ?_, fun err h => ?_, fun symbols e h => ?_, ?_⟩
  · obtain ⟨before, after, hchars, hstart⟩ := h.contains
    exact ⟨before, after, hchars, hstart ▸ Position.isBehind_skip before⟩
  · obtain ⟨p, fault, ⟨⟨before, after, hchars, rfl⟩, -⟩, rfl⟩ := h.hasPlace
    exact ⟨before, after, _, fault, hchars, Position.isBehind_skip before, rfl⟩
  · exact ⟨symbols.blames_readOperator h.blamed,
      fun what scope mode => Symbols.trusts_of_blamed h.blamed what scope mode⟩
  · rintro text rfl
    exact ⟨fun config => Domain.blames_read config text, fun d => Problem.blames_read d text⟩

/-- A word of a character of two bytes on the first line, and on the second one a word that is no
section. -/
def misplaced : String := "(define (domain ö)\n  oops)"

theorem Excerpt.places_exact_misplaced :
    (Domain.read .default misplaced).result =
        .error (.malformed 2 3 (.expectedFound "a domain section" "oops")) ∧
      ∃ before after, (prepare misplaced).toList = before ++ after ∧ before.count '\n' = 1 ∧
        (before.reverse.takeWhile (· ≠ '\n')).length = 2 := by
  have hread : (Domain.read .default misplaced).result =
      .error (.malformed 2 3 (.expectedFound "a domain section" "oops")) := by
    rw [← Domain.readExcerpt_excerpt]
    decide +kernel
  obtain ⟨-, hplaces, -, hreaders⟩ := Excerpt.places_exact (prepare misplaced)
  have hrefuses := (hreaders misplaced rfl).1 .default _ _ _ hread
  obtain ⟨before, after, p, fault, hchars, hp, heq⟩ := hplaces _ hrefuses
  obtain ⟨hline, hcolumn, -⟩ := Error.malformed.inj heq
  have hl := hp.line
  have hc := hp.column
  exact ⟨hread, before, after, hchars, by omega, by omega⟩

end Pddl
