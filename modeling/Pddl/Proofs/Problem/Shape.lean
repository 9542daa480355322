import Pddl.Proofs.Domain.Shape
import Pddl.Proofs.Problem.Collect
import Pddl.Proofs.Problem.RoundTrip

namespace Pddl

open Text

/-- The entries of an initial state that are left out, since they are about action predicates. -/
inductive Domain.Omits (d : Domain) : Shape → Prop where
  | atom {w : String} {args : List Shape} (hne : w ≠ "=") (h : d.isActionPredicate w = true) :
      Omits d (.list (.word w :: args))
  | fluent {w : String} {args : List Shape} {value : Shape} (h : d.isActionPredicate w = true) :
      Omits d (.list [.word "=", .list (.word w :: args), value])

namespace Domain

variable {d : Domain} {scope : Scope}

theorem headsAction_iff {ts : List Tree} :
    d.headsAction ts = true ↔
      ∃ w args, ts.map Tree.shape = .word w :: args ∧ d.isActionPredicate w = true := by
  rcases ts with _ | ⟨⟨e⟩ | ⟨e, items⟩ | ⟨e, err⟩, ts⟩ <;> simp [headsAction]

theorem readFluent_eq_none {entry : Tree} {args : List Tree} :
    d.readFluent scope entry args = .ok none ↔
      ∃ w inside value, args.map Tree.shape = [.list (.word w :: inside), value] ∧
        d.isActionPredicate w = true := by
  constructor
  · intro h
    unfold readFluent at h
    split at h
    · rename_i term value
      simp only [bind_eq_ok, Tree.expectItems_eq_ok] at h
      obtain ⟨items, ⟨e, rfl⟩, h⟩ := h
      split at h
      · rename_i haction
        obtain ⟨w, inside, hitems, hw⟩ := headsAction_iff.1 haction
        exact ⟨w, inside, value.shape, by simp [hitems], hw⟩
      · simp only [bind_eq_ok, pure_eq_ok, reduceCtorEq, and_false, exists_false] at h
    · simp at h
  · rintro ⟨w, inside, value, hargs, hw⟩
    obtain ⟨term, value, rfl, hterm, -⟩ := Tree.eq_pair_of_shapes hargs
    obtain ⟨e, items, rfl, hitems⟩ := Tree.eq_list_of_shape hterm
    have haction : d.headsAction items = true := headsAction_iff.2 ⟨w, inside, hitems, hw⟩
    simp only [readFluent, Tree.expectItems, ok_bind, haction, if_true]
    rfl

theorem readFact_eq_none {entry : Tree} :
    d.readFact scope entry = .ok none ↔ d.Omits entry.shape := by
  constructor
  · intro h
    simp only [readFact, bind_eq_ok, Tree.expectItems_eq_ok] at h
    obtain ⟨items, ⟨e, rfl⟩, h⟩ := h
    split at h
    · simp at h
    · rename_i head args
      simp only [bind_eq_ok, Tree.expectWord_eq_ok] at h
      obtain ⟨word, rfl, h⟩ := h
      split at h
      · rename_i hequal
        obtain ⟨w, inside, value, hargs, hw⟩ := readFluent_eq_none.1 h
        simpa [hequal, hargs] using Omits.fluent hw
      · rename_i hequal
        split at h
        · rename_i haction
          simpa using Omits.atom hequal haction
        · simp only [bind_eq_ok, pure_eq_ok, reduceCtorEq, and_false, exists_false] at h
  · intro h
    generalize hs : entry.shape = s at h
    cases h with
    | atom hne haction =>
      obtain ⟨e, w, args, rfl, rfl, -⟩ := Tree.eq_headed_of_shape hs
      simp only [readFact, Tree.expectItems, Tree.expectWord, ok_bind, if_neg hne, haction, if_true]
      rfl
    | fluent haction =>
      obtain ⟨e, w, args, rfl, hw, hargs⟩ := Tree.eq_headed_of_shape hs
      simp only [readFact, Tree.expectItems, Tree.expectWord, ok_bind, hw, if_true]
      exact readFluent_eq_none.2 ⟨_, _, _, hargs, haction⟩

theorem readFact_congr {entry entry' : Tree} {fact : Option Fact}
    (hshape : entry.shape = entry'.shape) (h : d.readFact scope entry = .ok fact) :
    d.readFact scope entry' = .ok fact := by
  cases fact with
  | none =>
    rw [readFact_eq_none] at h ⊢
    exact hshape ▸ h
  | some f =>
    rw [readFact_eq_some] at h ⊢
    exact hshape ▸ h

theorem readFacts_congr {ts ts' : List Tree} {facts : List Fact}
    (hshapes : ts.map Tree.shape = ts'.map Tree.shape) (h : d.readFacts scope ts = .ok facts) :
    d.readFacts scope ts' = .ok facts := by
  induction ts generalizing ts' facts with
  | nil =>
    obtain rfl := List.map_eq_nil_iff.1 hshapes.symm
    exact h
  | cons t ts ih =>
    obtain ⟨t', ts', rfl, ht, hts⟩ := List.map_eq_cons_iff.1 hshapes.symm
    simp only [readFacts, bind_eq_ok, pure_eq_ok] at h ⊢
    obtain ⟨fact, hfact, rest, hrest, rfl⟩ := h
    exact ⟨fact, readFact_congr ht.symm hfact, rest, ih hts.symm hrest, rfl⟩

end Domain

namespace ProblemSections

open Shape

/-- Whether the same is stored, with initial states and goals of the same shapes. -/
structure Alike (s r : ProblemSections) : Prop where
  name : s.name = r.name
  domainName : s.domainName = r.domainName
  objects : s.objects = r.objects
  init : s.init.map Tree.shape = r.init.map Tree.shape
  goal : s.goal.map Tree.shape = r.goal.map Tree.shape

variable {s r : ProblemSections} {types : Types} {ss rs : List Shape}

theorem singleton_word_injective : Function.Injective fun w => [Shape.word w] := by
  intro v w hvw
  simpa using hvw

section Collects

variable (hs : s.Collects types ss) (hr : r.Collects types rs)

include hs hr

theorem Collects.name_eq (h : bodies "problem" ss = bodies "problem" rs) : s.name = r.name :=
  Option.map_injective singleton_word_injective (hs.name.trans (h ▸ hr.name.symm))

theorem Collects.domainName_eq (h : bodies ":domain" ss = bodies ":domain" rs) :
    s.domainName = r.domainName :=
  Option.map_injective singleton_word_injective (hs.domainName.trans (h ▸ hr.domainName.symm))

theorem Collects.goal_eq (h : bodies ":goal" ss = bodies ":goal" rs) :
    s.goal.map Tree.shape = r.goal.map Tree.shape := by
  have hgoals : Function.Injective fun g : Shape => [g] := List.singleton_injective
  apply Option.map_injective hgoals
  rw [Option.map_map, Option.map_map]
  exact hs.goal.trans (h ▸ hr.goal.symm)

end Collects

theorem Collects.alike (hs : s.Collects types ss) (hr : r.Collects types ss) : s.Alike r where
  name := hs.name_eq hr rfl
  domainName := hs.domainName_eq hr rfl
  objects := hs.objects.unique hr.objects
  init := hs.init.trans hr.init.symm
  goal := hs.goal_eq hr rfl

end ProblemSections

namespace Problem

variable {d : Domain} {p : Problem} {s r : ProblemSections}

theorem IsOf.of_alike (h : p.IsOf d s) (halike : s.Alike r) : p.IsOf d r where
  name := halike.name ▸ h.name
  domainName := halike.domainName ▸ h.domainName
  fits := h.fits
  objects := halike.objects ▸ h.objects
  init := by
    obtain ⟨facts, hfacts, hinit⟩ := h.init
    exact ⟨facts, Domain.readFacts_congr halike.init hfacts, hinit⟩
  goal := Symbols.readOptional_congr halike.goal h.goal

/-- The text of a problem is a definition with sections that can be stored, and the problem is what
they say. -/
theorem exists_collects_of_read {text : String} (h : (Problem.read d text).result = .ok p) :
    ∃ ss sections, tokenTree text = .ok (.list (.word "define" :: ss)) ∧
      (∀ s ∈ ss, ProblemSections.Storable d.types s) ∧
      ProblemSections.Collects sections d.types ss ∧ p.IsOf d sections := by
  obtain ⟨definition, trees, sections, hdefinition, hsections, hp⟩ := read_eq_ok.1 h
  have hstorable := ProblemSections.exists_setAll_iff.1 ⟨sections, hsections⟩
  exact ⟨trees.map Tree.shape, sections, tokenTree_of_readDefinition hdefinition,
    List.forall_mem_map.2 hstorable, ProblemSections.collects_of_setAll hsections, hp⟩

theorem exists_collects_of_storable {text : String} {ss : List Shape}
    (htree : tokenTree text = .ok (.list (.word "define" :: ss)))
    (hstorable : ∀ s ∈ ss, ProblemSections.Storable d.types s) :
    ∃ sections, ProblemSections.Collects sections d.types ss ∧
      ∀ q, IsOf q d sections → (Problem.read d text).result = .ok q := by
  obtain ⟨definition, trees, hdefinition, rfl⟩ := readDefinition_of_tokenTree htree
  rw [List.forall_mem_map] at hstorable
  obtain ⟨sections, hsections⟩ := ProblemSections.exists_setAll_iff.2 hstorable
  refine ⟨sections, ProblemSections.collects_of_setAll hsections, fun q hq => ?_⟩
  exact read_eq_ok.2 ⟨definition, trees, sections, hdefinition, hsections, hq⟩

theorem read_of_sameTree {text text' : String} {x : Shape} (htree : tokenTree text = .ok x)
    (htree' : tokenTree text' = .ok x) (h : (Problem.read d text).result = .ok p) :
    (Problem.read d text').result = .ok p := by
  obtain ⟨ss, sections, hread, hstorable, hcollects, hp⟩ := exists_collects_of_read h
  obtain rfl := Except.ok.inj (htree.symm.trans hread)
  obtain ⟨sections', hcollects', hread'⟩ := exists_collects_of_storable htree' hstorable
  exact hread' p (hp.of_alike (hcollects.alike hcollects'))

end Problem

theorem Domain.read_of_sameTree {config : Config} {d : Domain} {text text' : String} {x : Shape}
    (htree : tokenTree text = .ok x) (htree' : tokenTree text' = .ok x)
    (h : (Domain.read config text).result = .ok d) : (Domain.read config text').result = .ok d := by
  obtain ⟨-, definition, trees, -, -, hdefinition, -⟩ := read_eq_ok.1 h
  obtain rfl := Except.ok.inj (htree.symm.trans (tokenTree_of_readDefinition hdefinition))
  exact read_of_sameSections htree htree' (Shape.sameSections_refl _) h

/-- Domains and problems are read by the words of a text and their nesting: its layout, its comments
and the case of its letters do not matter. -/
theorem read_of_tokenTree {text text' : String} {x : Shape} (htree : tokenTree text = .ok x)
    (htree' : tokenTree text' = .ok x) :
    (∀ config d, (Domain.read config text).result = .ok d ↔
        (Domain.read config text').result = .ok d) ∧
      ∀ d p, (Problem.read d text).result = .ok p ↔ (Problem.read d text').result = .ok p :=
  ⟨fun _ _ => ⟨Domain.read_of_sameTree htree htree', Domain.read_of_sameTree htree' htree⟩,
    fun _ _ => ⟨Problem.read_of_sameTree htree htree', Problem.read_of_sameTree htree' htree⟩⟩

def Domain.quiet : String := "(define (domain d) (:predicates (p)))"

def Domain.loud : String := "(DEFINE(Domain D); one predicate\n\t( :predicates(P) ))"

def Problem.quiet : String := "(define (problem q) (:domain d) (:goal (p)))"

def Problem.loud : String := "( define(Problem Q); (:init (p))\n(:DOMAIN D)(:goal(P)))"

theorem read_of_tokenTree_loud :
    (∃ x, tokenTree Domain.quiet = .ok x ∧ tokenTree Domain.loud = .ok x) ∧
      (∃ x, tokenTree Problem.quiet = .ok x ∧ tokenTree Problem.loud = .ok x) ∧
      ∃ d, (Domain.read .default Domain.quiet).result = .ok d ∧
        (Domain.read .default Domain.loud).result = .ok d ∧
        ∃ p, (Problem.read d Problem.quiet).result = .ok p ∧
          (Problem.read d Problem.loud).result = .ok p := by
  have hdomain : ∃ x, tokenTree Domain.quiet = .ok x ∧ tokenTree Domain.loud = .ok x := by
    decide +kernel
  have hproblem : ∃ x, tokenTree Problem.quiet = .ok x ∧ tokenTree Problem.loud = .ok x := by
    decide +kernel
  obtain ⟨d, hd, p, hp, -⟩ : ∃ d, (Domain.read .default Domain.quiet).result = .ok d ∧
      ∃ p, (Problem.read d Problem.quiet).result = .ok p ∧ p.name = "q" := by
    decide +kernel
  obtain ⟨x, hquiet, hloud⟩ := id hdomain
  obtain ⟨y, hquiet', hloud'⟩ := id hproblem
  exact ⟨hdomain, hproblem, d, hd, ((read_of_tokenTree hquiet hloud).1 _ d).1 hd, p, hp,
    ((read_of_tokenTree hquiet' hloud').2 d p).1 hp⟩

end Pddl
