import Pddl.Proofs.Problem.Collect
import Pddl.Proofs.Problem.Facts

namespace Pddl

open Text

namespace Problem

variable {d : Domain} {p : Problem}

def scope (d : Domain) (objects : List Entity) : Scope := Scope.ofEntities (d.constants ++ objects)

/-- Whether the problem is what the sections say. -/
structure IsOf (p : Problem) (d : Domain) (s : ProblemSections) : Prop where
  name : s.name = some p.name
  domainName : s.domainName = some p.domainName
  fits : p.domainName = d.name
  objects : Sorted.ofList s.objects = p.objects
  init : ∃ facts, d.readFacts (scope d p.objects) s.init = .ok facts ∧ Sorted.ofList facts = p.init
  goal : d.readOptional (scope d p.objects) .condition s.goal = .ok p.goal

theorem read_eq_ok {text : String} :
    (Problem.read d text).result = .ok p ↔
      ∃ definition trees sections,
        readDefinition (.ofString (prepare text)) = .ok (definition, trees) ∧
        (ProblemSections.empty.setAll d.types trees).result = .ok sections ∧ p.IsOf d sections := by
  simp only [Problem.read, Report.result_bind, Report.result_liftM, bind_eq_ok, Prod.exists]
  constructor
  · rintro ⟨definition, trees, hdefinition, sections, hsections, h⟩
    refine ⟨definition, trees, sections, hdefinition, hsections, ?_⟩
    split at h
    · simp at h
    · simp at h
    · rename_i name domainName hname hdomain
      split at h
      · simp at h
      · rename_i hfits
        simp only [Report.result_bind, Report.result_liftM, Report.result_pure, bind_eq_ok,
          Except.ok.injEq] at h
        obtain ⟨facts, hfacts, goal, hgoal, rfl⟩ := h
        exact ⟨hname, hdomain, not_not.1 hfits, rfl, ⟨facts, hfacts, rfl⟩, hgoal⟩
  · rintro ⟨definition, trees, sections, hdefinition, hsections, hp⟩
    refine ⟨definition, trees, hdefinition, sections, hsections, ?_⟩
    obtain ⟨facts, hfacts, hinit⟩ := hp.init
    simp only [hp.name, hp.domainName, hp.fits, ne_eq, not_true_eq_false, if_false,
      Report.result_bind, Report.result_liftM, Report.result_pure, bind_eq_ok, Except.ok.injEq,
      hp.objects]
    refine ⟨facts, hfacts, p.goal, hp.goal, ?_⟩
    rw [hinit, ← hp.fits]

def numbers (p : Problem) : List Number := p.init.filterMap Fact.value? ++ p.goal.numbers

def shapes (p : Problem) (layout : Layout) : List Shape :=
  ProblemSections.shapes layout p.name p.domainName (p.objects.flatMap Entity.shapes)
    (p.init.map Fact.shape) p.goal.shape

/-- Whether every part of the problem is written with its own words. -/
structure IsWritten (p : Problem) : Prop where
  name : PlainWord p.name
  domainName : PlainWord p.domainName
  objects : ∀ e ∈ p.objects, e.Plain
  init : ∀ f ∈ p.init, Spells f.text.toList [f.shape]
  goal : p.goal.IsWritten

theorem segment_objects (h : p.IsWritten) :
    Segment p.objectsText [.list (.word ":objects" :: p.objects.flatMap Entity.shapes)] := by
  have hlines := Segment.lines "\t\t" (by simp) (by simp [IsSpace])
    fun e he => Entity.spells_text (h.objects e he)
  unfold objectsText
  exact .of_block (by simp) (by decide) hlines.spells

theorem segment_init (h : p.IsWritten) :
    Segment p.initText [.list (.word ":init" :: p.init.map Fact.shape)] := by
  have hlines := Segment.lines "\t\t" (by simp) (by simp [IsSpace]) h.init
  rw [← List.map_eq_flatMap] at hlines
  unfold initText
  exact .of_block (by simp) (by decide) hlines.spells

theorem segment_goal (h : p.IsWritten) :
    Segment p.goalText [.list [.word ":goal", p.goal.shape]] := by
  unfold goalText
  exact .of_line (by simp) (by decide) h.goal.spells

theorem writes_text (h : p.IsWritten) (layout : Layout) :
    Writes (p.text layout) (.word "define" :: p.shapes layout) := by
  have hwords : PlainWord "problem" ∧ PlainWord ":domain" := by decide
  have hname := (Spells.single_plain hwords.1).append_blank (.single_plain h.name)
  have hdomain := (Spells.single_plain hwords.2).append_blank (.single_plain h.domainName)
  cases layout with
  | fastDownward =>
    have hsections := (segment_objects h).append ((segment_init h).append (segment_goal h))
    have hrest := Spells.list hname
      (.gap (Or.inl rfl) (.list hdomain (.gap (Or.inr (Or.inr rfl)) hsections.spells)))
    refine .of_keyword ?_ (by decide) hrest
    unfold text
    simp
  | goalFirst =>
    have hsections := (segment_objects h).append ((segment_goal h).append (segment_init h))
    have hrest := Spells.list hname
      (.gap (Or.inl rfl) (.list hdomain (.gap (Or.inr (Or.inr rfl)) hsections.spells)))
    refine .of_keyword ?_ (by decide) hrest
    unfold text
    simp

/-- The sections of the text of a problem say what the problem is. -/
theorem isOf_of_written {original sections : ProblemSections} (hp : p.IsOf d original)
    {init : List Tree} {goal : Tree}
    (hsections : sections = ⟨some p.name, some p.domainName, p.objects, init, some goal⟩)
    (hinit : init.map Tree.shape = p.init.map Fact.shape) (hgoal : goal.shape = p.goal.shape)
    (hfacts : ∀ f ∈ p.init, d.States (scope d p.objects) f.shape f)
    (hdenotes : d.Denotes (scope d p.objects) .condition p.goal.shape p.goal) :
    p.IsOf d sections := by
  subst hsections
  refine ⟨rfl, rfl, hp.fits, ?_, ⟨p.init, ?_, ?_⟩, Symbols.readFormula_eq_ok.2 (hgoal ▸ hdenotes)⟩
  · rw [← hp.objects]
    exact Sorted.ofList_of_ascending (Sorted.ascending_ofList _)
  · exact Domain.readFacts_of_forall₂
      (forall₂_of_map_eq hinit fun f hf t ht => ht ▸ hfacts f hf)
  · obtain ⟨facts, -, hof⟩ := hp.init
    rw [← hof]
    exact Sorted.ofList_of_ascending (Sorted.ascending_ofList _)

variable {sections : ProblemSections} (hp : p.IsOf d sections) (hplain : sections.Plain d.types)
  (hnumbers : ∀ x ∈ p.numbers, x.ReadsBack)

include hp hplain

theorem exists_states {f : Fact} (hf : f ∈ p.init) :
    ∃ s : Shape, s.Plain ∧ d.States (scope d p.objects) s f := by
  obtain ⟨facts, hfacts, hinit⟩ := hp.init
  rw [← hinit] at hf
  obtain ⟨t, ht, hstates⟩ := Domain.exists_of_mem_readFacts hfacts (Sorted.mem_of_mem_ofList hf)
  exact ⟨t.shape, hplain.init t ht, hstates⟩

theorem isWritten : p.IsWritten := by
  obtain ⟨s, hs, hgoal⟩ := Symbols.denotes_of_readOptional hp.goal hplain.goal
  refine ⟨hplain.name _ hp.name, hplain.domainName _ hp.domainName, fun e he => ?_, fun f hf => ?_,
    hgoal.isWritten hs⟩
  · rw [← hp.objects] at he
    exact (hplain.objects e (Sorted.mem_of_mem_ofList he)).1
  · obtain ⟨u, hu, hstates⟩ := exists_states hp hplain hf
    exact hstates.spells hu

theorem declares_objects
    (htyping : d.types.usesTyping = false ∨ ∀ e ∈ p.objects, e.type ≠ implicitType) :
    d.types.Declares .adHoc (p.objects.flatMap Entity.shapes) p.objects := by
  refine Types.declares_shapes (fun e he => ?_) fun htrue => htyping.resolve_left (by simp [htrue])
  rw [← hp.objects] at he
  exact (hplain.objects e (Sorted.mem_of_mem_ofList he)).2

include hnumbers

theorem states_shape {f : Fact} (hf : f ∈ p.init) : d.States (scope d p.objects) f.shape f := by
  obtain ⟨s, -, hstates⟩ := exists_states hp hplain hf
  refine hstates.shape fun v hv => hnumbers v (List.mem_append_left _ ?_)
  exact List.mem_filterMap.2 ⟨f, hf, hv⟩

theorem denotes_goal (hseparate : d.types.Separate) :
    d.Denotes (scope d p.objects) .condition p.goal.shape p.goal := by
  obtain ⟨s, -, hgoal⟩ := Symbols.denotes_of_readOptional hp.goal hplain.goal
  have hback : ∀ n ∈ p.goal.nodes [], ∀ x ∈ n.numbers, x.ReadsBack := by
    intro n hn x hx
    have hmem : x ∈ p.goal.numbers := List.mem_flatMap.2 ⟨n, hn, hx⟩
    exact hnumbers x (List.mem_append_right _ hmem)
  exact hgoal.shape hseparate hback

omit hp hplain hnumbers

/-- A problem that was read is read back from its text, whatever the layout. -/
theorem read_text_eq {config : Config} {domainText text : String} (layout : Layout)
    (hd : (Domain.read config domainText).result = .ok d)
    (h : (Problem.read d text).result = .ok p)
    (htyping : d.types.usesTyping = false ∨ ∀ e ∈ p.objects, e.type ≠ implicitType)
    (hnumbers : ∀ x ∈ p.numbers, x.ReadsBack) :
    (Problem.read d (p.text layout)).result = .ok p := by
  obtain ⟨definition, trees, sections, hdefinition, hset, hp⟩ := read_eq_ok.1 h
  have hplain : sections.Plain d.types :=
    ProblemSections.plain_empty.setAll (plain_of_readDefinition hdefinition) hset
  have hdenotes := denotes_goal hp hplain hnumbers (Domain.fromText_of_read hd).separate
  obtain ⟨definition', trees', hdefinition', hshapes⟩ :=
    readDefinition_of_writes (writes_text (isWritten hp hplain) layout)
  obtain ⟨gs, hgs⟩ := hdenotes.eq_list
  rw [shapes, hgs] at hshapes
  obtain ⟨init, goal, hset', hinit, hgoal⟩ :=
    ProblemSections.setAll_shapes (declares_objects hp hplain htyping) hshapes
  refine read_eq_ok.2 ⟨definition', trees', _, hdefinition', hset', ?_⟩
  exact isOf_of_written hp rfl hinit (hgoal.trans hgs.symm)
    (fun f hf => states_shape hp hplain hnumbers hf) hdenotes

def counted : String :=
  "(define (problem q) (:domain d) (:objects b a) (:init (= (c) 2) (p a)) (:goal (not (p b))))"

theorem read_text_eq_counted : ∃ d p, (Problem.read d counted).result = .ok p ∧
    ∀ layout, (Problem.read d (p.text layout)).result = .ok p := by
  obtain ⟨d, hd, htyping, p, hp, hnumbers⟩ :
      ∃ d, (Domain.read .default Domain.counting).result = .ok d ∧ d.types.usesTyping = false ∧
        ∃ p, (Problem.read d counted).result = .ok p ∧ ∀ x ∈ p.numbers, x.ReadsBack := by
    decide +kernel
  exact ⟨d, p, hp, fun layout => read_text_eq layout hd hp (Or.inl htyping) hnumbers⟩

end Problem

end Pddl
