import Pddl.Proofs.Operator.Negation

namespace Pddl.Formula

def quantified (f : Formula) : List Entity := (f.nodes []).flatMap Node.binders

/-- The variables that are bound in a term's expansion and not in the term. -/
def introduced (f g : Formula) : List Entity := g.quantified.diff f.quantified

def introducedAll (fs gs : List Formula) : List Entity :=
  (List.zipWith introduced fs gs).flatten

/-- The variables of a negated atom, bare or under a time qualifier, that the terms before it do not
speak about. -/
def unseenBehind (before : List Formula) : Formula → List Entity
  | .not (.atom a) => Sorted.ofList (a.unseen (mentioned before))
  | .timed _ (.not (.atom a)) => Sorted.ofList (a.unseen (mentioned before))
  | _ => []

/-- The unseen variables of the negated atoms among the terms, one term after the other. -/
def unseenAll (before : List Formula) : List Formula → List Entity
  | [] => []
  | f :: fs => unseenBehind before f ++ unseenAll (before ++ [f]) fs

variable {c : Context} {before : List Formula} {names : List String}

theorem binders_forEach {body : Formula}
    (hbody : ∀ enclosing, (body.nodes enclosing).flatMap Node.binders = []) (vs enclosing : List Entity) :
    ((forEach vs body).nodes enclosing).flatMap Node.binders = vs := by
  induction vs generalizing enclosing with
  | nil => exact hbody enclosing
  | cons v vs ih =>
    rw [forEach, List.foldr_cons, ← forEach, nodes, List.flatMap_cons, ih]
    rfl

theorem binders_expandAtom (seen enclosing : List Entity) (taken : List String) (a : Application) :
    ((expandAtom seen taken a).1.nodes enclosing).flatMap Node.binders =
      (freshCopies taken (Sorted.ofList (a.variableArguments.filter (!seen.contains ·)))).1.map
        Prod.snd := by
  refine binders_forEach (fun enclosing => ?_) _ enclosing
  rw [nodes, nodesAll_eq_flatMap, List.flatMap_cons, List.flatMap_assoc, List.flatMap_append,
    List.append_eq_nil_iff, List.append_eq_nil_iff]
  refine ⟨rfl, List.flatMap_eq_nil_iff.2 fun guard hguard => ?_, rfl⟩
  obtain ⟨_, -, hguard⟩ := List.mem_flatMap.1 hguard
  obtain ⟨_, -, rfl⟩ := List.mem_map.1 hguard
  rfl

theorem Context.Follows.ofList_unseen (h : c.Follows before names) (a : Application) :
    Sorted.ofList (a.variableArguments.filter (!c.seen.contains ·)) =
      Sorted.ofList (a.unseen (mentioned before)) := by
  rw [Application.filter_variableArguments, Application.unseen_congr h.seen]

theorem introduced_self (f : Formula) : introduced f f = [] := by
  unfold introduced
  induction f.quantified with
  | nil => rfl
  | cons v vs ih => rw [List.diff_cons, List.erase_cons_head, ih]

theorem Context.Follows.renames_expandAtom (h : c.Follows before names) (a : Application)
    (enclosing : List Entity) :
    Renames c.taken (Sorted.ofList (a.unseen (mentioned before)))
        (((expandAtom c.seen c.taken a).1.nodes enclosing).flatMap Node.binders) ∧
      (expandAtom c.seen c.taken a).2 =
        takenBehind c.taken
          (((expandAtom c.seen c.taken a).1.nodes enclosing).flatMap Node.binders) := by
  rw [binders_expandAtom, expandAtom, h.ofList_unseen]
  exact renames_freshCopies c.taken _

theorem Context.Follows.renames (h : c.Follows before names) (f : Formula) :
    Renames c.taken (unseenBehind before f) (introduced f (Formula.expandTerm c f).1) ∧
      (Formula.expandTerm c f).2.taken =
        takenBehind c.taken (introduced f (Formula.expandTerm c f).1) := by
  cases hf : f.expands with
  | false =>
    have hunseen : unseenBehind before f = [] := by
      unfold unseenBehind
      split <;> simp_all [expands]
    have htaken : (Formula.expandTerm c f).2.taken = c.taken := by
      unfold Formula.expandTerm
      split <;> simp_all [expands]
    -- a term that stays brings in nothing
    rw [expandTerm_of_not_expands hf, introduced_self, hunseen, htaken]
    exact ⟨.nil, rfl⟩
  | true =>
    unfold expands at hf
    split at hf
    · rename_i a
      have hquantified : introduced (.not (.atom a)) (expandAtom c.seen c.taken a).1 =
          ((expandAtom c.seen c.taken a).1.nodes []).flatMap Node.binders := rfl
      exact hquantified ▸ h.renames_expandAtom a []
    · rename_i time a
      have hquantified : introduced (.timed time (.not (.atom a)))
          (.timed time (expandAtom c.seen c.taken a).1) =
            ((expandAtom c.seen c.taken a).1.nodes []).flatMap Node.binders := rfl
      exact hquantified ▸ h.renames_expandAtom a []
    · simp at hf

theorem Context.Follows.renamesAll (h : c.Follows before names) (fs : List Formula) :
    Renames c.taken (unseenAll before fs) (introducedAll fs (expandTerms c fs)) := by
  induction fs generalizing c before with
  | nil => exact .nil
  | cons f fs ih =>
    obtain ⟨hfirst, htaken⟩ := h.renames f
    have hrest := ih (h.expandTerm f)
    rw [htaken] at hrest
    exact hfirst.append hrest

/-- The expansion of a precondition copies the unseen variables of its negated atoms and binds no
other variables. The copies have different names, none of them the name of a parameter or of a free
variable of the precondition. Each has the name of its variable with the least number that gives none
of these names and none of the copies before it. The search for the number always ends at one. -/
theorem expandNegations_names (precondition : Formula) (parameters : List Entity) :
    let names := (parameters ++ precondition.freeVariables).map Entity.name
    let originals := unseenAll [] precondition.conjuncts
    let copies :=
      introducedAll precondition.conjuncts (precondition.expandNegations parameters)
    (copies.map Entity.name).Nodup ∧ (∀ w ∈ copies, w.name ∉ names) ∧
      copies.length = originals.length ∧
      (∀ (i : Nat) (v w : Entity), originals[i]? = some v → copies[i]? = some w →
        w.type = v.type ∧ IsFresh (names ++ (copies.take i).map Entity.name) v.name w.name) ∧
      ∀ taken name, ∃ n ≤ taken.length, freshName taken name = numbered name (n + 1) ∧
        freshName taken name ∉ taken ∧ ∀ m < n, numbered name (m + 1) ∈ taken := by
  intro names originals copies
  have hrenames : Renames names originals copies :=
    (Context.follows_after names []).renamesAll precondition.conjuncts
  exact ⟨hrenames.nodup.1, hrenames.nodup.2, hrenames.length,
    fun i v w hv hw => hrenames.getElem? hv hw, exists_freshName⟩

def neighbours : Formula :=
  .and [.atom ⟨"clear", [⟨"?x", "block"⟩]⟩, .not (.atom ⟨"on", [⟨"?x", "block"⟩, ⟨"?y", "block"⟩]⟩),
    .timed .overAll (.not (.atom ⟨"on", [⟨"?y", "block"⟩, ⟨"?z", "block"⟩]⟩))]

/-- The second copy of `?y` gets the third number: the first one has gone to the copy before it, and
the second one is in the name of the parameter. -/
theorem expandNegations_names_neighbours :
    (introducedAll neighbours.conjuncts (neighbours.expandNegations [⟨"?y-2", "block"⟩])).map
        Entity.name = ["?y-1", "?y-3", "?z-1"] ∧
      IsFresh ["?y-2", "?x", "?y", "?z", "?y-1"] "?y" "?y-3" := by
  have hcopies : introducedAll neighbours.conjuncts
      (neighbours.expandNegations [⟨"?y-2", "block"⟩]) =
        [⟨"?y-1", "block"⟩, ⟨"?y-3", "block"⟩, ⟨"?z-1", "block"⟩] := by
    decide +kernel
  have horiginals : unseenAll [] neighbours.conjuncts =
      [⟨"?y", "block"⟩, ⟨"?y", "block"⟩, ⟨"?z", "block"⟩] := by
    decide +kernel
  have hnames : ([Entity.mk "?y-2" "block"] ++ neighbours.freeVariables).map Entity.name =
      ["?y-2", "?x", "?y", "?z"] := by
    decide +kernel
  obtain ⟨-, -, -, hfresh, -⟩ := expandNegations_names neighbours [⟨"?y-2", "block"⟩]
  rw [hcopies, horiginals, hnames] at hfresh
  exact ⟨by rw [hcopies]; rfl, (hfresh 1 _ _ rfl rfl).2⟩

end Pddl.Formula
