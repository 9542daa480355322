import Pddl.Proofs.Formula.Nodes
import Pddl.Proofs.Formula.Spelling
import Pddl.Proofs.Types

namespace Pddl

namespace Symbols

variable {symbols : Symbols} {scope : Scope} {mode : Mode}

theorem values_binary {op : Arithmetic} {l r : Numeric} (hl : symbols.Values scope l.shape l)
    (hr : symbols.Values scope r.shape r) :
    symbols.Values scope (Numeric.binary op l r).shape (.binary op l r) := by
  have hrest : ∀ s x, (s, x) ∈ [r.shape].zip [r] → symbols.Values scope s x := by
    simpa using hr
  exact .folded op (List.cons_ne_nil r []) rfl hl hrest

theorem values_foldl {op : Arithmetic} {xs : List Numeric} {x : Numeric}
    (hx : symbols.Values scope x.shape x) (hxs : ∀ y ∈ xs, symbols.Values scope y.shape y) :
    symbols.Values scope (xs.foldl (.binary op) x).shape (xs.foldl (.binary op) x) := by
  induction xs generalizing x with
  | nil => exact hx
  | cons y ys ih =>
    rw [List.forall_mem_cons] at hxs
    exact ih (values_binary hx hxs.1) hxs.2

theorem Values.shape {s : Shape} {x : Numeric} (h : symbols.Values scope s x)
    (hnumbers : ∀ n ∈ x.numbers, n.ReadsBack) : symbols.Values scope x.shape x := by
  induction h with
  | number _ => exact .number (hnumbers _ (by simp [Numeric.numbers])).ofChars?_word
  | function hhead hchecked => exact .function hhead hchecked
  | negated _ ih =>
    have hzero : symbols.Values scope (Numeric.number .zero).shape (.number .zero) :=
      .number Number.readsBack_zero.ofChars?_word
    exact values_binary hzero (ih fun n hn => hnumbers n (by simp [Numeric.numbers, hn]))
  | @folded s x ss xs op _ hlen _ _ ihfirst ihrest =>
    rw [Numeric.numbers_foldl] at hnumbers
    refine values_foldl (ihfirst fun n hn => hnumbers n (List.mem_append_left _ hn)) ?_
    intro y hy
    obtain ⟨u, hu⟩ := exists_zip_of_mem hlen hy
    exact ihrest u y hu fun n hn =>
      hnumbers n (List.mem_append_right _ (List.mem_flatMap.2 ⟨y, hy, hn⟩))

theorem Denotes.shape {s : Shape} {f : Formula} {enclosing : List Entity}
    (h : symbols.Denotes scope mode s f) (hseparate : symbols.types.Separate)
    (hnumbers : ∀ n ∈ f.nodes enclosing, ∀ x ∈ n.numbers, x.ReadsBack) :
    symbols.Denotes scope mode f.shape f := by
  -- below a quantifier the nodes have more variables around them
  induction h generalizing enclosing with
  | trivial => exact .and rfl (by simp)
  | atom hhead hchecked => exact .atom hhead hchecked
  | not _ ih =>
    rw [Formula.nodes, List.forall_mem_cons] at hnumbers
    exact .not (ih hnumbers.2)
  | delete _ ih =>
    rw [Formula.nodes, List.forall_mem_cons] at hnumbers
    exact .delete (ih hnumbers.2)
  | and hlen _ ih =>
    rw [Formula.nodes, List.forall_mem_cons, Formula.nodesAll_eq_flatMap] at hnumbers
    rw [Formula.shape, Formula.shapes_eq_map]
    refine .and (List.length_map _) (forall_zip_map fun f hf => ?_)
    obtain ⟨u, hu⟩ := exists_zip_of_mem hlen hf
    exact ih u f hu fun n hn => hnumbers.2 n (List.mem_flatMap.2 ⟨f, hf, hn⟩)
  | or hlen _ ih =>
    rw [Formula.nodes, List.forall_mem_cons, Formula.nodesAll_eq_flatMap] at hnumbers
    rw [Formula.shape, Formula.shapes_eq_map]
    refine .or (List.length_map _) (forall_zip_map fun f hf => ?_)
    obtain ⟨u, hu⟩ := exists_zip_of_mem hlen hf
    exact ih u f hu fun n hn => hnumbers.2 n (List.mem_flatMap.2 ⟨f, hf, hn⟩)
  | imply _ _ ihleft ihright =>
    rw [Formula.nodes, List.forall_mem_cons, List.forall_mem_append] at hnumbers
    exact .imply (ihleft hnumbers.2.1) (ihright hnumbers.2.2)
  | forAll hbinders hne hbind _ ih =>
    rw [Formula.nodes, List.forall_mem_cons] at hnumbers
    exact .forAll (hbinders.shapes hseparate) hne hbind (ih hnumbers.2)
  | thereIs hbinders hne hbind _ ih =>
    rw [Formula.nodes, List.forall_mem_cons] at hnumbers
    exact .thereIs (hbinders.shapes hseparate) hne hbind (ih hnumbers.2)
  | unbound _ _ _ ih => exact ih hnumbers
  | when _ _ ihcondition iheffect =>
    rw [Formula.nodes, List.forall_mem_cons, List.forall_mem_append] at hnumbers
    exact .when (ihcondition hnumbers.2.1) (iheffect hnumbers.2.2)
  | assign ha hx =>
    rw [Formula.nodes, List.forall_mem_cons] at hnumbers
    exact .assign ha (hx.shape hnumbers.1)
  | @probabilistic scope args outcomes hlen hprobability _ htotal ih =>
    rw [Formula.nodes, List.forall_mem_cons, Formula.nodesOutcomes_eq_flatMap] at hnumbers
    have hshape : outcomes.flatMap (fun o => [Shape.word o.1.word, o.2.shape]) =
        (outcomes.map fun o => (o.1.word, o.2.shape)).flatMap fun a => [.word a.1, a.2] := by
      rw [List.flatMap_map]
    rw [Formula.shape, Formula.outcomeShapes_eq_flatMap, hshape]
    refine .probabilistic (List.length_map _) (forall_zip_map fun o ho => ?_)
      (forall_zip_map fun o ho => ?_) htotal
    · obtain ⟨a, hao⟩ := exists_zip_of_mem hlen ho
      have hback := hnumbers.1 o.1 (List.mem_map_of_mem ho)
      exact ⟨hback.ofChars?_word, (hprobability a o hao).2⟩
    · obtain ⟨a, hao⟩ := exists_zip_of_mem hlen ho
      exact ih a o hao fun n hn => hnumbers.2 n (List.mem_flatMap.2 ⟨o, ho, hn⟩)
  | comparison ha hx =>
    rw [Formula.nodes, List.forall_mem_cons] at hnumbers
    exact .comparison ha (hx.shape hnumbers.1)
  | equal ha hb => exact .equal ha hb
  | different hbuiltin ha hb => exact .different hbuiltin ha hb
  | timed time _ ih =>
    rw [Formula.nodes, List.forall_mem_cons] at hnumbers
    exact .timed time (ih hnumbers.2)

/-- What is read from a prepared text is read back from its own text. -/
theorem readFormula_text {what what' : String} {t : Tree} {f : Formula}
    (h : symbols.readFormula what scope mode t = .ok f) (hplain : t.shape.Plain)
    (hseparate : symbols.types.Separate) (hnumbers : ∀ x ∈ f.numbers, x.ReadsBack) :
    symbols.readFormula what' scope mode (Excerpt.ofString (Text.prepare f.text)).tree = .ok f := by
  have hdenotes := readFormula_eq_ok.1 h
  obtain ⟨ss, hshape, hwrites⟩ := hdenotes.isWritten hplain
  rw [readFormula_eq_ok, hwrites.shape_prepare, ← hshape]
  exact hdenotes.shape hseparate (fun n hn x hx => hnumbers x (List.mem_flatMap.2 ⟨n, hn, hx⟩))

end Symbols

end Pddl
