import Pddl.Proofs.Formula.Determinize
import Pddl.Proofs.Formula.Soundness

namespace Pddl

def Node.entities (n : Node) : List Entity := n.binders ++ n.arguments

def Formula.entities (f : Formula) : List Entity := (f.nodes []).flatMap Node.entities

namespace Formula

theorem flatMap_entities_nodes (f : Formula) (enclosing : List Entity) :
    (f.nodes enclosing).flatMap Node.entities = f.entities := by
  induction f using induct_parts generalizing enclosing with
  | h f ih =>
    -- the quantifiers around the parts differ, the parts themselves do not
    have hsplit : ∀ enclosing, (f.nodes enclosing).flatMap Node.entities =
        (Node.mk [] f).entities ++ (f.parts []).flatMap fun m => m.formula.entities := by
      intro enclosing
      have hparts : (f.parts enclosing).flatMap (fun m => m.formula.entities) =
          (f.parts []).flatMap fun m => m.formula.entities := by
        cases f <;> simp [parts, List.flatMap_map]
      rw [nodes_eq, List.flatMap_cons, List.flatMap_assoc, ← hparts]
      exact congrArg _ (List.flatMap_congr fun m hm => ih enclosing m hm m.enclosing)
    rw [entities, hsplit enclosing, hsplit []]

/-- The entities are those of the formula itself and those of its parts. -/
theorem mem_entities {f : Formula} {e : Entity} :
    e ∈ f.entities ↔ e ∈ (Node.mk [] f).entities ∨ ∃ m ∈ f.parts [], e ∈ m.formula.entities := by
  rw [entities, nodes_eq, List.flatMap_cons, List.mem_append, List.flatMap_assoc, List.mem_flatMap]
  simp only [flatMap_entities_nodes]

@[simp] theorem entities_trivial : trivial.entities = [] := rfl

theorem entities_getD_subset {f : Formula} {g : Option Formula}
    (h : ∀ x ∈ g, x.entities ⊆ f.entities) : (g.getD trivial).entities ⊆ f.entities := by
  cases g with
  | none => simp
  | some x => exact h x rfl

/-- What is left of a formula is about the same entities or fewer. -/
theorem entities_determinize_subset {f g : Formula} (h : g ∈ f.determinize) :
    g.entities ⊆ f.entities := by
  induction f using Formula.induct generalizing g with
  | probabilistic os ih =>
    rw [determinize_probabilistic, Option.mem_def, Option.bind_eq_some_iff] at h
    obtain ⟨o, ho, hg⟩ := h
    have hmem := mem_of_mostLikely ho
    intro e he
    exact mem_entities.2 (Or.inr ⟨⟨[], o.2⟩, List.mem_map_of_mem hmem, ih o hmem hg he⟩)
  | and fs ih =>
    obtain rfl : Formula.and (determinizeAll fs) = g := by simpa [determinize] using h
    intro e he
    rw [determinizeAll_eq_filterMap, mem_entities] at he
    obtain ⟨m, hm, he⟩ := he.resolve_left List.not_mem_nil
    obtain ⟨x, hx, rfl⟩ := List.mem_map.1 hm
    obtain ⟨f, hf, hfx⟩ := List.mem_filterMap.1 hx
    exact mem_entities.2 (Or.inr ⟨⟨[], f⟩, List.mem_map_of_mem hf, ih f hf hfx he⟩)
  | forAll vs f ih =>
    obtain rfl : Formula.forAll vs (f.determinize.getD trivial) = g := by
      simpa [determinize] using h
    have hbody := entities_getD_subset fun x hx => ih hx
    intro e he
    rw [mem_entities] at he ⊢
    refine he.imp_right ?_
    simpa [parts] using @hbody e
  | when c f _ ih =>
    obtain rfl : Formula.when c (f.determinize.getD trivial) = g := by
      simpa [determinize] using h
    have heffect := entities_getD_subset fun x hx => ih hx
    intro e he
    rw [mem_entities] at he ⊢
    refine he.imp_right ?_
    simpa [parts] using Or.imp_right (@heffect e)
  | timed t f ih =>
    obtain ⟨x, hx, rfl⟩ : ∃ x, f.determinize = some x ∧ Formula.timed t x = g := by
      simpa [determinize] using h
    intro e he
    rw [mem_entities] at he ⊢
    refine he.imp_right ?_
    simpa [parts] using @ih x hx e
  | _ =>
    -- every other formula is returned as it is
    obtain rfl := Option.some.inj ((determinize_of_not_opened rfl).symm.trans h)
    exact List.Subset.refl _

end Formula

namespace Symbols

variable {symbols : Symbols} {scope : Scope} {mode : Mode} {s : Shape} {f : Formula}

theorem Denotes.admits_binders (h : symbols.Denotes scope mode s f) (enclosing : List Entity) :
    ∀ n ∈ f.nodes enclosing, ∀ v ∈ n.binders, symbols.types.Admits .reject v.type := by
  induction h generalizing enclosing with
  | trivial | atom | assign | comparison | equal | different =>
    simp [Formula.trivial, Formula.nodes, Formula.nodesAll, Node.binders]
  | not _ ih | delete _ ih | timed _ _ ih =>
    rw [Formula.nodes, List.forall_mem_cons]
    exact ⟨by simp [Node.binders], ih enclosing⟩
  | and hlen _ ih | or hlen _ ih =>
    rw [Formula.nodes, List.forall_mem_cons, Formula.nodesAll_eq_flatMap]
    refine ⟨by simp [Node.binders], ?_⟩
    simp only [List.mem_flatMap, forall_exists_index, and_imp]
    intro n f hf hn
    obtain ⟨s, hs⟩ := exists_zip_of_mem hlen hf
    exact ih s f hs enclosing n hn
  | imply _ _ ihleft ihright | when _ _ ihleft ihright =>
    rw [Formula.nodes, List.forall_mem_cons, List.forall_mem_append]
    exact ⟨by simp [Node.binders], ihleft enclosing, ihright enclosing⟩
  | forAll hbinders _ _ _ ih | thereIs hbinders _ _ _ ih =>
    rw [Formula.nodes, List.forall_mem_cons]
    exact ⟨fun v hv => (hbinders.declarable v hv).admits, ih _⟩
  | unbound _ _ _ ih => exact ih enclosing
  | probabilistic hlen _ _ _ ih =>
    rw [Formula.nodes, List.forall_mem_cons, Formula.nodesOutcomes_eq_flatMap]
    refine ⟨by simp [Node.binders], ?_⟩
    simp only [List.mem_flatMap, forall_exists_index, and_imp]
    intro n o ho hn
    obtain ⟨a, hao⟩ := exists_zip_of_mem hlen ho
    exact ih a o hao enclosing n hn

/-- An argument is visible from outside or bound inside. -/
theorem Denotes.admits (h : symbols.Denotes scope mode s f)
    (hscope : ∀ e ∈ scope, symbols.types.Admits .reject e.type) :
    ∀ e ∈ f.entities, symbols.types.Admits .reject e.type := by
  intro e he
  obtain ⟨n, hn, he⟩ := List.mem_flatMap.1 he
  rcases List.mem_append.1 he with hbinder | hargument
  · exact h.admits_binders [] n hn e hbinder
  · rcases (h.sound (.refl scope) n hn).arguments e hargument with hsees | henclosing
    · exact hscope e hsees.mem
    · rcases Formula.mem_enclosing hn henclosing with hnil | ⟨m, hm, hbinder⟩
      · exact absurd hnil List.not_mem_nil
      · exact h.admits_binders [] m hm e hbinder

end Symbols

end Pddl
