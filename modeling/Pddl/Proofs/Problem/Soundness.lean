import Pddl.Proofs.Formula.Soundness
import Pddl.Proofs.Problem.RoundTrip

namespace Pddl

namespace Domain.States

variable {d : Domain} {scope : Scope} {s : Shape} {f : Fact}

theorem sees (h : d.States scope s f) : ∀ e ∈ f.term.arguments, scope.Sees e := by
  cases h with
  | atom _ _ hchecked => exact hchecked.sees
  | fluent _ hchecked _ => exact hchecked.sees

theorem isActionPredicate_head (h : d.States scope s f) : d.isActionPredicate f.head = false := by
  cases h with
  | atom _ haction _ => exact haction
  | fluent haction _ _ => exact haction

theorem fits_atom {a : Application} (h : d.States scope s (.atom a)) :
    a.Fits d.predicates d.types := by
  cases h with
  | atom _ _ hchecked => exact hchecked.fits

theorem fits_fluent {a : Application} {v : Number} (h : d.States scope s (.fluent a v)) :
    a.Fits d.functions d.types := by
  cases h with
  | fluent _ hchecked _ => exact hchecked.fits

end Domain.States

namespace Problem

variable {d : Domain} {p : Problem} {text : String}

/-- Whether the entity, with this type, is an object of the problem or a constant of its domain. -/
def Knows (p : Problem) (d : Domain) (e : Entity) : Prop := e ∈ p.objects ∨ e ∈ d.constants

theorem knows_of_sees {e : Entity} (h : (scope d p.objects).Sees e) : p.Knows d e := by
  have hmem := h.mem
  rw [scope, Scope.ofEntities, List.mem_reverse, List.mem_append] at hmem
  exact hmem.symm

/-- The invariant of problems. A fact has the declared number of arguments, of types that are
consistent with the declared ones, and an argument of the goal is known unless a quantifier around
it binds it. -/
structure WellFormed (p : Problem) (d : Domain) : Prop where
  domainName : p.domainName = d.name
  atoms : ∀ a, .atom a ∈ p.init → a.Fits d.predicates d.types
  fluents : ∀ a v, .fluent a v ∈ p.init → a.Fits d.functions d.types
  arguments : ∀ f ∈ p.init, ∀ e ∈ f.term.arguments, p.Knows d e
  heads : ∀ f ∈ p.init, f.head ∉ d.actionPredicates
  goal : ∀ n ∈ p.goal.nodes [], ∀ e ∈ n.arguments, e ∉ n.enclosing → p.Knows d e

theorem exists_isOf_of_read (h : (Problem.read d text).result = .ok p) :
    ∃ sections, p.IsOf d sections ∧ sections.Plain d.types := by
  obtain ⟨definition, trees, sections, hdefinition, hset, hp⟩ := read_eq_ok.1 h
  refine ⟨sections, hp, ?_⟩
  exact ProblemSections.plain_empty.setAll (plain_of_readDefinition hdefinition) hset

/-- Whatever its kind, a fact comes from an entry that was checked in the scope of the problem. -/
theorem exists_states_of_read (h : (Problem.read d text).result = .ok p) :
    ∀ f ∈ p.init, ∃ s, d.States (scope d p.objects) s f := by
  obtain ⟨sections, hp, hplain⟩ := exists_isOf_of_read h
  intro f hf
  obtain ⟨s, -, hs⟩ := exists_states hp hplain hf
  exact ⟨s, hs⟩

theorem knows_of_mem_init (h : (Problem.read d text).result = .ok p) {f : Fact} (hf : f ∈ p.init) :
    ∀ e ∈ f.term.arguments, p.Knows d e := by
  intro e he
  obtain ⟨s, hs⟩ := exists_states_of_read h f hf
  exact knows_of_sees (hs.sees e he)

theorem wellFormed_of_read (h : (Problem.read d text).result = .ok p) : p.WellFormed d := by
  obtain ⟨sections, hp, hplain⟩ := exists_isOf_of_read h
  have hstates := exists_states_of_read h
  constructor
  case domainName => exact hp.fits
  case atoms =>
    intro a ha
    obtain ⟨s, hs⟩ := hstates _ ha
    exact hs.fits_atom
  case fluents =>
    intro a v ha
    obtain ⟨s, hs⟩ := hstates _ ha
    exact hs.fits_fluent
  case arguments => exact fun f hf => knows_of_mem_init h hf
  case heads =>
    intro f hf hmem
    obtain ⟨s, hs⟩ := hstates f hf
    simpa [Domain.isActionPredicate, hmem] using hs.isActionPredicate_head
  case goal =>
    intro n hn e he hfree
    obtain ⟨s, -, hgoal⟩ := Symbols.denotes_of_readOptional hp.goal hplain.goal
    have hsound := hgoal.sound (.refl _) n hn
    exact knows_of_sees ((hsound.arguments e he).resolve_right hfree)

def furnished : String :=
  "(define (domain d) (:types room thing) (:constants c - room) " ++
    "(:predicates (in ?x - thing ?r - room) (act ?x - object)) " ++
      "(:functions (size ?r - room)) (:actions act))"

/-- An object that hides the constant, a fact that is dropped, and a goal with a variable. -/
def moved : String :=
  "(define (problem q) (:domain d) (:objects c - thing r - room) " ++
    "(:init (act c) (in c r) (= (size r) 2)) (:goal (forall (?x - thing) (in ?x r))))"

theorem wellFormed_of_read_moved :
    ∃ d, (Domain.read .default furnished).result = .ok d ∧
      ∃ p, (Problem.read d moved).result = .ok p ∧ p.init.length = 2 ∧ p.WellFormed d := by
  obtain ⟨d, hd, p, hp, hlength⟩ : ∃ d, (Domain.read .default furnished).result = .ok d ∧
      ∃ p, (Problem.read d moved).result = .ok p ∧ p.init.length = 2 := by
    decide +kernel
  exact ⟨d, hd, p, hp, hlength, wellFormed_of_read hp⟩

end Problem

end Pddl
