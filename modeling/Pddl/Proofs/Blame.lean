import Pddl.Proofs.Tree.Places
import Pddl.Proofs.Tree.Shape
import Pddl.TypedList

namespace Pddl

/-- Whether all errors that name a place are among `R`. Errors about names and types name none. -/
def Blames (R : Error → Prop) {α : Type} (x : Except Error α) : Prop :=
  ∀ line column fault, x = .error (.malformed line column fault) → R (.malformed line column fault)

def Excerpt.Blamed (R : Error → Prop) (e : Excerpt) : Prop := ∀ fault, R (e.fault fault)

/-- Whether every fault may be found wherever a word or a list of the tree begins. -/
inductive Tree.Blamed (R : Error → Prop) : Tree → Prop
  | word {e : Excerpt} (he : e.Blamed R) : Blamed R (.word e)
  | list {e : Excerpt} {items : List Tree} (he : e.Blamed R) (h : ∀ t ∈ items, Blamed R t) :
      Blamed R (.list e items)
  | broken {e : Excerpt} {err : Error} (he : e.Blamed R) (h : R err) : Blamed R (.broken e err)

variable {R : Error → Prop} {α β : Type}

theorem blames_ok (a : α) : Blames R (.ok a) := fun _ _ _ h => by simp at h

theorem blames_pure (a : α) : Blames R (pure a) := blames_ok a

theorem blames_error {err : Error} (h : R err) : Blames R (.error err : Except Error α) := by
  rintro line column fault heq
  exact Except.error.inj heq ▸ h

theorem blames_placeless {err : Error} (h : ∀ line column fault, err ≠ .malformed line column fault) :
    Blames R (.error err : Except Error α) :=
  fun line column fault heq => absurd (Except.error.inj heq) (h line column fault)

/-- Steps blame what the first one blames or, with a value of it, the others do. -/
theorem Blames.bind {x : Except Error α} {f : α → Except Error β} (hx : Blames R x)
    (hf : ∀ a, x = .ok a → Blames R (f a)) : Blames R (x >>= f) := by
  cases x with
  | error err =>
    intro line column fault h
    exact hx line column fault (congrArg Except.error (Except.error.inj h))
  | ok a => exact hf a rfl

theorem Excerpt.Blamed.blames {e : Excerpt} (h : e.Blamed R) (fault : Fault) :
    Blames R (.error (e.fault fault) : Except Error α) :=
  blames_error (h fault)

namespace Tree

variable {t : Tree}

theorem Blamed.here (h : t.Blamed R) : t.here.Blamed R := by
  cases h with
  | word he => exact he
  | list he => exact he
  | broken he => exact he

theorem Blamed.blames (h : t.Blamed R) (fault : Fault) :
    Blames R (.error (t.fault fault) : Except Error α) :=
  h.here.blames fault

theorem Blamed.of_list {e : Excerpt} {items : List Tree} (h : (Tree.list e items).Blamed R) :
    e.Blamed R ∧ ∀ t ∈ items, t.Blamed R := by
  cases h with
  | list he h => exact ⟨he, h⟩

theorem Blamed.of_broken {e : Excerpt} {err : Error} (h : (Tree.broken e err).Blamed R) :
    e.Blamed R ∧ R err := by
  cases h with
  | broken he h => exact ⟨he, h⟩

theorem Blamed.expectWord (h : t.Blamed R) (what : String) : Blames R (t.expectWord what) := by
  cases t with
  | word e => exact blames_ok e
  | list e items => exact h.here.blames _
  | broken e err => exact h.here.blames _

theorem Blamed.of_expectWord (h : t.Blamed R) {what : String} {e : Excerpt}
    (he : t.expectWord what = .ok e) : e.Blamed R := by
  obtain rfl := expectWord_eq_ok.1 he
  exact h.here

theorem Blamed.expectList (h : t.Blamed R) (what : String) : Blames R (t.expectList what) := by
  cases t with
  | word e => exact h.here.blames _
  | list e items => exact blames_ok _
  | broken e err => exact blames_ok _

theorem Blamed.expectItems (h : t.Blamed R) (what : String) : Blames R (t.expectItems what) := by
  cases t with
  | word e => exact h.here.blames _
  | list e items => exact blames_ok _
  | broken e err => exact blames_error h.of_broken.2

theorem Blamed.of_expectItems (h : t.Blamed R) {what : String} {items : List Tree}
    (hitems : t.expectItems what = .ok items) : ∀ u ∈ items, u.Blamed R := by
  obtain ⟨e, rfl⟩ := expectItems_eq_ok.1 hitems
  exact h.of_list.2

end Tree

/-- In the tree of a part of a text only what refuses the text is blamed. -/
theorem Excerpt.Reaches.blamed {text e : Excerpt} (h : text.Reaches e) :
    e.tree.Blamed text.Refuses := by
  induction hn : e.chars.length using Nat.strongRecOn generalizing e with
  | ind n ih =>
    cases hitems : e.items with
    | error err =>
      rw [tree_of_error hitems]
      exact .broken (.here h) (.items h hitems)
    | ok items =>
      rw [tree_of_ok hitems]
      refine .list (.here h) (List.forall_mem_map.2 fun item hitem => ?_)
      have hreaches := h.item hitems hitem
      cases item with
      | word w => exact .word (.here hreaches)
      | group g => exact ih _ (hn ▸ length_of_mem_items hitems hitem) hreaches rfl

theorem blames_typedNamesAfter {pending : List Excerpt} {ts : List Tree}
    (h : ∀ t ∈ ts, t.Blamed R) : Blames R (typedNamesAfter pending ts) := by
  induction hn : ts.length using Nat.strongRecOn generalizing pending ts with
  | ind n ih =>
    cases ts with
    | nil => exact blames_ok _
    | cons t ts =>
      obtain ⟨ht, hts⟩ := List.forall_mem_cons.1 h
      rw [List.length_cons] at hn
      rw [typedNamesAfter]
      refine (ht.expectWord _).bind fun name hname => ?_
      have hblamed := ht.of_expectWord hname
      split
      · exact ih ts.length (by omega) hts rfl
      · split
        · rename_i type rest
          rw [List.length_cons] at hn
          split
          · exact hblamed.blames _
          · split
            · exact hblamed.blames _
            · exact (ih rest.length (by omega) (List.forall_mem_cons.1 hts).2 rfl).bind
                fun others _ => blames_pure _
        · exact (List.forall_mem_cons.1 hts).1.here.blames _
        · exact (List.forall_mem_cons.1 hts).1.here.blames _
        · exact hblamed.blames _

namespace Types

variable (types : Types)

theorem blames_resolve (policy : Undeclared) (word : Excerpt) :
    Blames R (types.resolve policy word).result := by
  unfold resolve
  dsimp only
  split
  · split
    · exact blames_pure _
    · exact blames_placeless (by simp)
  · split
    · exact blames_pure _
    · cases policy with
      | reject => exact blames_placeless (by simp)
      | adHoc => exact blames_ok _

theorem blames_entity (policy : Undeclared) (n : TypedName) :
    Blames R (types.entity policy n).result := by
  unfold entity
  split
  · rw [Report.result_bind]
    exact (types.blames_resolve policy _).bind fun type _ => blames_pure _
  · split
    · exact blames_placeless (by simp)
    · exact blames_pure _

theorem blames_entitiesOf (policy : Undeclared) (ns : List TypedName) :
    Blames R (types.entitiesOf policy ns).result := by
  induction ns with
  | nil => exact blames_pure _
  | cons n ns ih =>
    simp only [entitiesOf, Report.result_bind]
    exact (types.blames_entity policy n).bind fun e _ => ih.bind fun es _ => blames_pure _

theorem blames_entities (policy : Undeclared) {ts : List Tree} (h : ∀ t ∈ ts, t.Blamed R) :
    Blames R (types.entities policy ts).result := by
  simp only [entities, Report.result_bind, Report.result_ofExcept]
  exact (blames_typedNamesAfter h).bind fun names _ => types.blames_entitiesOf policy names

theorem blames_declaredEntities {ts : List Tree} (h : ∀ t ∈ ts, t.Blamed R) :
    Blames R (types.declaredEntities ts) :=
  types.blames_entities .reject h

end Types

end Pddl
