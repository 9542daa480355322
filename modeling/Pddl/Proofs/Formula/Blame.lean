import Pddl.Formula.Reader
import Pddl.Proofs.Blame

namespace Pddl

variable {R : Error → Prop}

theorem blames_readNumber {word : Excerpt} (h : word.Blamed R) : Blames R (readNumber word) := by
  unfold readNumber
  split
  · exact blames_ok _
  · exact h.blames _

theorem blames_readProbability {t : Tree} (h : t.Blamed R) : Blames R (readProbability t) := by
  refine (h.expectWord _).bind fun word hword => ?_
  have hblamed := h.of_expectWord hword
  refine (blames_readNumber hblamed).bind fun p _ => ?_
  split
  · exact blames_ok p
  · exact hblamed.blames _

namespace Scope

variable (scope : Scope)

theorem blames_resolve {t : Tree} (h : t.Blamed R) : Blames R (scope.resolve t) := by
  refine (h.expectWord _).bind fun word _ => ?_
  split
  · exact blames_ok _
  · exact blames_placeless (by simp)

theorem blames_resolveAll {ts : List Tree} (h : ∀ t ∈ ts, t.Blamed R) :
    Blames R (scope.resolveAll ts) := by
  induction ts with
  | nil => exact blames_ok _
  | cons t ts ih =>
    obtain ⟨ht, hts⟩ := List.forall_mem_cons.1 h
    exact (scope.blames_resolve ht).bind fun e _ => (ih hts).bind fun es _ => blames_pure _

end Scope

theorem Signature.blames_apply (signature : Signature) (types : Types) (arguments : List Entity) :
    Blames R (signature.apply types arguments) := by
  unfold apply
  split
  · exact blames_placeless (by simp)
  · split
    · exact blames_placeless (by simp)
    · exact blames_ok _

theorem Signature.blames_read (signature : Signature) (types : Types) (scope : Scope)
    {args : List Tree} (h : ∀ t ∈ args, t.Blamed R) :
    Blames R (signature.read types scope args) := by
  unfold read
  split
  · exact blames_placeless (by simp)
  · exact (scope.blames_resolveAll h).bind fun arguments _ => signature.blames_apply types arguments

theorem blames_wrongCount {α : Type} {keyword : Excerpt} (h : keyword.Blamed R) (needed given : Nat) :
    Blames R (wrongCount keyword needed given : Except Error α) :=
  h.blames _

theorem Mode.blames_require (mode allowed : Mode) {keyword : Excerpt} (h : keyword.Blamed R) :
    Blames R (mode.require allowed keyword) := by
  unfold require
  split
  · exact blames_ok _
  · exact h.blames _

theorem Scope.blames_readDifferent (scope : Scope) {keyword : Excerpt} {args : List Tree}
    (hkeyword : keyword.Blamed R) (h : ∀ t ∈ args, t.Blamed R) :
    Blames R (scope.readDifferent keyword args) := by
  unfold readDifferent
  split
  · simp only [List.forall_mem_cons] at h
    exact (scope.blames_resolve h.1).bind fun a _ =>
      (scope.blames_resolve h.2.1).bind fun b _ => blames_pure _
  · exact blames_wrongCount hkeyword _ _

namespace Symbols

variable (symbols : Symbols) (scope : Scope) {args : List Tree} {keyword : Excerpt} {t : Tree}

theorem blames_readAtom (head : Excerpt) (h : ∀ t ∈ args, t.Blamed R) :
    Blames R (symbols.readAtom scope head args) := by
  unfold readAtom
  split
  · exact Signature.blames_read _ _ _ h
  · exact blames_placeless (by simp)

theorem blames_readFunction (head : Excerpt) (h : ∀ t ∈ args, t.Blamed R) :
    Blames R (symbols.readFunction scope head args) := by
  unfold readFunction
  split
  · exact Signature.blames_read _ _ _ h
  · exact blames_placeless (by simp)

theorem blames_readTerm (h : t.Blamed R) : Blames R (symbols.readTerm scope t) := by
  unfold readTerm
  split
  · exact h.here.blames _
  · exact blames_error h.of_broken.2
  · exact h.here.blames _
  · obtain ⟨-, hitems⟩ := h.of_list
    rw [List.forall_mem_cons] at hitems
    exact (hitems.1.expectWord _).bind fun head _ =>
      symbols.blames_readFunction scope head hitems.2

theorem blames_combine {head : Excerpt} (h : head.Blamed R) (operation : Arithmetic)
    (operands : List Numeric) : Blames R (combine head operation operands) := by
  unfold combine
  split
  · exact h.blames _
  · split
    · exact blames_ok _
    · exact h.blames _
  · exact blames_ok _

theorem blames_readNumerics (h : ∀ t ∈ args, Blames R (symbols.readNumeric scope t)) :
    Blames R (symbols.readNumerics scope args) := by
  induction args with
  | nil =>
    rw [readNumerics]
    exact blames_ok _
  | cons t ts ih =>
    obtain ⟨ht, hts⟩ := List.forall_mem_cons.1 h
    rw [readNumerics]
    exact ht.bind fun x _ => (ih hts).bind fun xs _ => blames_pure _

theorem blames_readNumeric (h : t.Blamed R) : Blames R (symbols.readNumeric scope t) := by
  induction t using Tree.induct with
  | word e =>
    rw [readNumeric]
    exact (blames_readNumber h.here).bind fun value _ => blames_pure _
  | broken e err =>
    rw [readNumeric]
    exact blames_error h.of_broken.2
  | list e items ih =>
    obtain ⟨he, hitems⟩ := h.of_list
    cases items with
    | nil =>
      rw [readNumeric]
      exact he.blames _
    | cons head args =>
      rw [List.forall_mem_cons] at ih hitems
      rw [readNumeric]
      refine (hitems.1.expectWord _).bind fun word hword => ?_
      split
      · exact (symbols.blames_readFunction scope word hitems.2).bind fun term _ => blames_pure _
      · exact (symbols.blames_readNumerics scope fun t ht => ih.2 t ht (hitems.2 t ht)).bind
          fun operands _ => blames_combine (hitems.1.of_expectWord hword) _ operands

theorem blames_readRelation (relation : Relation) (hkeyword : keyword.Blamed R)
    (h : ∀ t ∈ args, t.Blamed R) :
    Blames R (symbols.readRelation scope keyword relation args) := by
  unfold readRelation
  split
  · simp only [List.forall_mem_cons] at h
    split
    · exact (symbols.blames_readTerm scope h.1).bind fun term _ =>
        (symbols.blames_readNumeric scope h.2.1).bind fun value _ => blames_pure _
    · split
      · exact (scope.blames_resolve h.1).bind fun a _ =>
          (scope.blames_resolve h.2.1).bind fun b _ => blames_pure _
      · exact h.1.blames _
  · exact blames_wrongCount hkeyword _ _

theorem blames_readUpdate (update : Update) (hkeyword : keyword.Blamed R)
    (h : ∀ t ∈ args, t.Blamed R) : Blames R (symbols.readUpdate scope keyword update args) := by
  unfold readUpdate
  split
  · simp only [List.forall_mem_cons] at h
    exact (symbols.blames_readTerm scope h.1).bind fun target _ =>
      (symbols.blames_readNumeric scope h.2.1).bind fun value _ => blames_pure _
  · exact blames_wrongCount hkeyword _ _

/-- Whether reading a tree as a formula blames only what the tree is blamed for. -/
def Trusts (R : Error → Prop) (symbols : Symbols) (t : Tree) : Prop :=
  ∀ (what : String) (scope : Scope) (mode : Mode), Blames R (symbols.readFormula what scope mode t)

variable {symbols}

theorem blames_readFormulas (mode : Mode) (h : ∀ t ∈ args, symbols.Trusts R t) :
    Blames R (symbols.readFormulas scope mode args) := by
  induction args with
  | nil =>
    rw [readFormulas]
    exact blames_ok _
  | cons t ts ih =>
    obtain ⟨ht, hts⟩ := List.forall_mem_cons.1 h
    rw [readFormulas]
    exact (ht _ _ _).bind fun f _ => (ih hts).bind fun fs _ => blames_pure _

theorem Scope.blames_bind (scope : Scope) (es : List Entity) : Blames R (scope.bind es) := by
  induction es generalizing scope with
  | nil => exact blames_ok _
  | cons e es ih =>
    unfold Scope.bind
    split
    · exact blames_placeless (by simp)
    · exact ih _

theorem blames_readQuantified (quantifier : List Entity → Formula → Formula) (mode : Mode)
    (hkeyword : keyword.Blamed R) (hargs : ∀ t ∈ args, t.Blamed R)
    (h : ∀ t ∈ args, symbols.Trusts R t) :
    Blames R (symbols.readQuantified keyword quantifier scope mode args) := by
  unfold readQuantified
  split
  · simp only [List.forall_mem_cons] at hargs h
    refine (hargs.1.expectItems _).bind fun trees htrees => ?_
    refine (symbols.types.blames_declaredEntities (hargs.1.of_expectItems htrees)).bind
      fun binders _ => ?_
    refine (hargs.2.1.expectList _).bind fun _ _ => ?_
    split
    · exact h.2.1 _ _ _
    · exact (Scope.blames_bind scope binders).bind fun inner _ =>
        (h.2.1 _ _ _).bind fun f _ => blames_pure _
  · exact blames_wrongCount hkeyword _ _

theorem blames_readTimed (kind : Keyword) (mode : Mode) (hargs : ∀ t ∈ args, t.Blamed R)
    (h : ∀ t ∈ args, symbols.Trusts R t) :
    Blames R (symbols.readTimed keyword kind scope mode args) := by
  have hatom : Blames R (do
      let atom ← symbols.readAtom scope keyword args
      return Formula.atom atom) :=
    (symbols.blames_readAtom scope keyword hargs).bind fun atom _ => blames_pure _
  unfold readTimed
  split
  · simp only [List.forall_mem_cons] at h
    split
    · exact (h.2.1 _ _ _).bind fun f _ => blames_pure _
    · exact hatom
  · exact hatom

theorem blames_readOutcomes (hargs : ∀ t ∈ args, t.Blamed R) (h : ∀ t ∈ args, symbols.Trusts R t) :
    Blames R (symbols.readOutcomes scope args) := by
  induction args using List.twoStepInduction with
  | nil =>
    rw [readOutcomes]
    exact blames_ok _
  | singleton t =>
    rw [readOutcomes]
    exact blames_ok _
  | cons_cons probability outcome rest ih _ =>
    simp only [List.forall_mem_cons] at hargs h
    rw [readOutcomes]
    exact (blames_readProbability hargs.1).bind fun p _ =>
      (h.2.1 _ _ _).bind fun f _ =>
        (ih hargs.2.2 h.2.2).bind fun others _ => blames_pure _

theorem trusts_of_blamed (h : t.Blamed R) : symbols.Trusts R t := by
  intro what scope mode
  induction t using Tree.induct generalizing what scope mode with
  | word e =>
    rw [readFormula]
    exact h.here.blames _
  | broken e err =>
    rw [readFormula]
    exact blames_error h.of_broken.2
  | list e items ih =>
    obtain ⟨-, hitems⟩ := h.of_list
    cases items with
    | nil =>
      rw [readFormula]
      exact blames_ok _
    | cons head args =>
      rw [List.forall_mem_cons] at ih hitems
      obtain ⟨hhead, hargs⟩ := hitems
      have htrusts : ∀ t ∈ args, symbols.Trusts R t := fun t ht => ih.2 t ht (hargs t ht)
      rw [readFormula]
      refine (hhead.expectWord _).bind fun keyword hword => ?_
      have hkeyword := hhead.of_expectWord hword
      dsimp only
      -- from here on the keyword decides which reader is at work
      cases Keyword.ofText keyword.text with
      | and => exact (blames_readFormulas scope mode htrusts).bind fun terms _ => blames_pure _
      | or => exact (blames_readFormulas scope mode htrusts).bind fun terms _ => blames_pure _
      | forAll => exact blames_readQuantified scope _ mode hkeyword hargs htrusts
      | thereIs => exact blames_readQuantified scope _ mode hkeyword hargs htrusts
      | not =>
        dsimp only
        split
        · refine (htrusts _ (by simp) _ _ _).bind fun body _ => ?_
          cases mode <;> exact blames_pure _
        · exact blames_wrongCount hkeyword _ _
      | imply =>
        refine (mode.blames_require _ hkeyword).bind fun _ _ => ?_
        split
        · exact (htrusts _ (by simp) _ _ _).bind fun l _ =>
            (htrusts _ (by simp) _ _ _).bind fun r _ => blames_pure _
        · exact blames_wrongCount hkeyword _ _
      | when =>
        refine (mode.blames_require _ hkeyword).bind fun _ _ => ?_
        split
        · exact (htrusts _ (by simp) _ _ _).bind fun c _ =>
            (htrusts _ (by simp) _ _ _).bind fun e _ => blames_pure _
        · exact blames_wrongCount hkeyword _ _
      | probabilistic =>
        refine (mode.blames_require _ hkeyword).bind fun _ _ => ?_
        split
        · exact hkeyword.blames _
        · refine (blames_readOutcomes scope hargs htrusts).bind fun outcomes _ => ?_
          split
          · exact hkeyword.blames _
          · exact blames_pure _
      | timePoint => exact blames_readTimed scope _ mode hargs htrusts
      | timeSpan => exact blames_readTimed scope _ mode hargs htrusts
      | different =>
        dsimp only
        split
        · exact scope.blames_readDifferent hkeyword hargs
        · exact (symbols.blames_readAtom scope keyword hargs).bind fun atom _ => blames_pure _
      | relation relation => exact symbols.blames_readRelation scope relation hkeyword hargs
      | update update =>
        exact (mode.blames_require _ hkeyword).bind fun _ _ =>
          symbols.blames_readUpdate scope update hkeyword hargs
      | predicate =>
        exact (symbols.blames_readAtom scope keyword hargs).bind fun atom _ => blames_pure _

end Symbols

end Pddl
