import Pddl.Proofs.Domain.Reader
import Pddl.Proofs.Formula.Soundness

namespace Pddl

/-- An operator whose formulas are sound in the scope of the constants and its parameters. -/
structure Operator.Sound (o : Operator) (symbols : Symbols) (scope : Scope) : Prop where
  bind : symbols.scope.bind o.parameters = .ok scope
  precondition : ∀ n ∈ o.precondition.nodes [], n.Sound symbols scope
  effect : ∀ n ∈ o.effect.nodes [], n.Sound symbols scope

theorem Symbols.Describes.sound {symbols : Symbols} {o : Operator} {scope : Scope}
    (h : symbols.Describes o scope) : o.Sound symbols scope := by
  obtain ⟨s, -, hprecondition⟩ := h.precondition
  obtain ⟨u, -, heffect⟩ := h.effect
  exact ⟨h.bind, hprecondition.sound (.refl scope), heffect.sound (.refl scope)⟩

theorem Symbols.sound_of_readOperator {symbols : Symbols} {t : Tree} {o : Operator}
    (h : symbols.readOperator t = .ok o) : ∃ scope, o.Sound symbols scope := by
  obtain ⟨_, _, _, _, _, scope, -, -, -, hstores⟩ := readOperator_eq_ok.1 h
  obtain ⟨s, -, hprecondition⟩ := exists_denotes_of_readOptional hstores.precondition
  obtain ⟨u, -, heffect⟩ := exists_denotes_of_readOptional hstores.effect
  exact ⟨scope, hstores.bind, hprecondition.sound (.refl scope), heffect.sound (.refl scope)⟩

/-- Whether all that a table declares is declared in another one too, in the same way. Only the
other may have more predicates. -/
structure Symbols.Extends (others symbols : Symbols) : Prop where
  types : others.types = symbols.types
  predicate {name : String} {s : Signature} (h : symbols.predicate? name = some s) :
    others.predicate? name = some s
  functions : others.functions = symbols.functions
  constants : others.constants = symbols.constants

theorem Draft.extends_of_build {t : Draft} {d : Domain} (h : t.build = .ok d) :
    d.toSymbols.Extends t.toSymbols := by
  have hpredicates := Draft.predicates_of_build h
  obtain ⟨all, actions, -, -, rfl⟩ := Draft.build_eq_ok.1 h
  refine ⟨rfl, fun {name s} hs => ?_, rfl, rfl⟩
  -- the declared predicates stand before those of the operators
  rw [Symbols.predicate?, hpredicates, Signature.find?, List.find?_append]
  exact Option.or_eq_some_iff.2 (Or.inl hs)

section Extends

variable {symbols others : Symbols} {scope : Scope}

theorem Node.Sound.of_extends {n : Node} (h : n.Sound symbols scope)
    (hextends : others.Extends symbols) : n.Sound others scope := by
  refine ⟨fun a ha => ?_, fun a ha => ?_, h.arguments, h.nodup, h.fresh⟩
  · obtain ⟨s, hs, hfits⟩ := h.atoms a ha
    exact ⟨s, hextends.predicate hs, hextends.types ▸ hfits⟩
  · rw [hextends.functions, hextends.types]
    exact h.terms a ha

theorem Operator.Sound.of_extends {o : Operator} (h : o.Sound symbols scope)
    (hextends : others.Extends symbols) : o.Sound others scope := by
  refine ⟨?_, fun n hn => (h.precondition n hn).of_extends hextends,
    fun n hn => (h.effect n hn).of_extends hextends⟩
  rw [Symbols.scope, hextends.constants]
  exact h.bind

end Extends

theorem Domain.sound_of_read {config : Config} {text : String} {d : Domain}
    (h : (Domain.read config text).result = .ok d) {o : Operator} (ho : o ∈ d.operators) :
    ∃ scope, o.Sound d.toSymbols scope := by
  obtain ⟨t, ht, hbuild⟩ := Domain.draft_of_read h
  have hextends := Draft.extends_of_build hbuild
  obtain ⟨all, actions, -, -, rfl⟩ := Draft.build_eq_ok.1 hbuild
  obtain ⟨scope, hdescribes⟩ := ht.operators o ho
  exact ⟨scope, hdescribes.sound.of_extends hextends⟩

end Pddl
