import Pddl.Problem.Reader
import Pddl.Proofs.Success
import Pddl.Proofs.Text.Characters

namespace Pddl

/-- Reads a domain from prepared characters. Given those that the bytes of a text say it holds, this can
be evaluated, which decoding the text stands in the way of. -/
def Domain.readExcerpt (config : Config) (e : Excerpt) : Report Domain := do
  config.validate
  let (definition, trees) ← readDefinition e
  let sections ← DomainSections.empty.setAll trees
  match sections.name with
  | none => .ofExcept (.error (definition.fault (.missing "`(domain <name>)`")))
  | some name => do
    let symbols ← sections.symbols
    let operators ← symbols.readOperators sections.operators
    let (actionPredicates, operatorsAsActions) ← sections.actionNames config definition
    Draft.build {
      toSymbols := symbols
      name := name.text
      requirements := sections.requirements
      operators
      actionPredicates
      operatorsAsActions }

theorem Domain.readExcerpt_excerpt (config : Config) (text : String) :
    readExcerpt config (Text.excerpt text) = Domain.read config text := by
  rw [Text.excerpt_eq]
  rfl

instance Domain.decidableReads {config : Config} {text : String} {P : Domain → Prop}
    [DecidablePred P] : Decidable (∃ d, (Domain.read config text).result = .ok d ∧ P d) :=
  decidable_of_iff (∃ d, (readExcerpt config (Text.excerpt text)).result = .ok d ∧ P d)
    (by rw [readExcerpt_excerpt])

def Problem.readExcerpt (d : Domain) (e : Excerpt) : Report Problem := do
  let (definition, trees) ← readDefinition e
  let sections ← ProblemSections.empty.setAll d.types trees
  match sections.name, sections.domainName with
  | none, _ => .ofExcept (.error (definition.fault (.missing "`(problem <name>)`")))
  | some _, none => .ofExcept (.error (definition.fault (.missing "`(:domain <name>)`")))
  | some name, some domainName =>
    if domainName ≠ d.name then .ofExcept (.error (.otherDomain d.name domainName))
    else do
      let objects := Sorted.ofList sections.objects
      let scope := Scope.ofEntities (d.constants ++ objects)
      let facts ← d.readFacts scope sections.init
      let goal ← d.readOptional scope .condition sections.goal
      return ⟨name, domainName, objects, Sorted.ofList facts, goal⟩

theorem Problem.readExcerpt_excerpt (d : Domain) (text : String) :
    readExcerpt d (Text.excerpt text) = Problem.read d text := by
  rw [Text.excerpt_eq]
  rfl

instance Problem.decidableReads {d : Domain} {text : String} {P : Problem → Prop}
    [DecidablePred P] : Decidable (∃ p, (Problem.read d text).result = .ok p ∧ P p) :=
  decidable_of_iff (∃ p, (readExcerpt d (Text.excerpt text)).result = .ok p ∧ P p)
    (by rw [readExcerpt_excerpt])

end Pddl
