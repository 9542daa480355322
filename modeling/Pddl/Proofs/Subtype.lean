import Mathlib.Logic.Function.Iterate
import Mathlib.Logic.Relation
import Pddl.Proofs.Types

namespace Pddl.Types

variable {t : Types}

/-- Whether immediate supertypes lead from the first type to the second. -/
def Inherits (t : Types) : String → String → Prop :=
  Relation.ReflTransGen fun sub super => super ∈ t.parents sub

namespace Ascent

variable {a : Ascent}

theorem mem_reached_reach {type x : String} :
    x ∈ (a.reach type).reached ↔ x = type ∨ x ∈ a.reached := by
  unfold reach
  split
  · rename_i hknown
    exact (or_iff_right_of_imp fun h => h ▸ List.contains_iff_mem.1 hknown).symm
  · exact List.mem_cons

theorem mem_frontier_reach {type x : String} :
    x ∈ (a.reach type).frontier ↔ (x = type ∧ x ∉ a.reached) ∨ x ∈ a.frontier := by
  unfold reach
  split
  · rename_i hknown
    refine (or_iff_right_of_imp ?_).symm
    rintro ⟨rfl, hnew⟩
    exact absurd (List.contains_iff_mem.1 hknown) hnew
  · rename_i hnew
    rw [List.contains_iff_mem] at hnew
    rw [List.mem_cons, and_iff_left_of_imp fun h => h ▸ hnew]

theorem mem_reached_foldl {types : List String} {x : String} :
    x ∈ (types.foldl reach a).reached ↔ x ∈ types ∨ x ∈ a.reached := by
  induction types generalizing a with
  | nil => simp
  | cons type types ih =>
    rw [List.foldl_cons, ih, mem_reached_reach, List.mem_cons]
    tauto

theorem mem_frontier_foldl {types : List String} {x : String} :
    x ∈ (types.foldl reach a).frontier ↔ (x ∈ types ∧ x ∉ a.reached) ∨ x ∈ a.frontier := by
  induction types generalizing a with
  | nil => simp
  | cons type types ih =>
    rw [List.foldl_cons, ih, mem_reached_reach, mem_frontier_reach, List.mem_cons]
    tauto

/-- What holds of every search from `type`: everything reached is inherited from, and a type whose
supertypes are not all reached waits in the frontier. -/
structure Explores (a : Ascent) (t : Types) (type : String) : Prop where
  start : type ∈ a.reached
  inherits : ∀ super ∈ a.reached, t.Inherits type super
  frontier : a.frontier ⊆ a.reached
  covers : ∀ sub ∈ a.reached, sub ∈ a.frontier ∨ t.parents sub ⊆ a.reached

theorem explores_start (t : Types) (type : String) : (start type).Explores t type where
  start := List.mem_singleton_self type
  inherits _ h := List.mem_singleton.1 h ▸ .refl
  frontier := List.Subset.refl _
  covers _ h := Or.inl h

namespace Explores

variable {type : String}

theorem step (h : a.Explores t type) : (a.step t).Explores t type := by
  unfold Ascent.step
  split
  · exact h
  · rename_i current rest hfrontier
    have hcurrent : current ∈ a.reached := h.frontier (hfrontier ▸ List.mem_cons_self)
    refine ⟨?_, fun super hsuper => ?_, fun x hx => ?_, fun sub hsub => ?_⟩
    · exact mem_reached_foldl.2 (Or.inr h.start)
    · rcases mem_reached_foldl.1 hsuper with hparent | hold
      · exact (h.inherits current hcurrent).tail hparent
      · exact h.inherits super hold
    · rw [mem_reached_foldl]
      rcases mem_frontier_foldl.1 hx with ⟨hparent, -⟩ | hrest
      · exact Or.inl hparent
      · exact Or.inr (h.frontier (hfrontier ▸ List.mem_cons_of_mem _ hrest))
    · -- A type reached by this step waits; one reached before waited, or all above it was reached.
      by_cases hold : sub ∈ a.reached
      · rcases h.covers sub hold with hwaits | habove
        · rw [hfrontier, List.mem_cons] at hwaits
          rcases hwaits with rfl | hrest
          · exact Or.inr fun x hx => mem_reached_foldl.2 (Or.inl hx)
          · exact Or.inl (mem_frontier_foldl.2 (Or.inr hrest))
        · exact Or.inr fun x hx => mem_reached_foldl.2 (Or.inr (habove hx))
      · have hparent := (mem_reached_foldl.1 hsub).resolve_right hold
        exact Or.inl (mem_frontier_foldl.2 (Or.inl ⟨hparent, hold⟩))

theorem mem_reached_iff (h : a.Explores t type) (hend : a.frontier = []) {super : String} :
    super ∈ a.reached ↔ t.Inherits type super := by
  refine ⟨h.inherits super, fun hpath => ?_⟩
  induction hpath with
  | refl => exact h.start
  | @tail middle super _ hparent ih =>
    have hcovers := h.covers middle ih
    rw [hend] at hcovers
    exact hcovers.resolve_left List.not_mem_nil hparent

theorem mem_ascend (h : a.Explores t type) {super : String} :
    super ∈ t.ascend a ↔ t.Inherits type super := by
  fun_induction Types.ascend t a with
  | case1 a hend => exact h.mem_reached_iff hend
  | case2 a _ _ ih => exact ih h.step

end Explores

/-- A search is over after at most as many steps as `remaining` counts. -/
theorem exists_iterate_step (t : Types) (a : Ascent) :
    ∃ n ≤ a.remaining t, ((step t)^[n] a).frontier = [] ∧
      t.ascend a = ((step t)^[n] a).reached := by
  fun_induction Types.ascend t a with
  | case1 a hend => exact ⟨0, Nat.zero_le _, hend, rfl⟩
  | case2 a _ hless ih =>
    obtain ⟨n, hn, hend, hreached⟩ := ih
    exact ⟨n + 1, by omega, hend, hreached⟩

theorem remaining_start (t : Types) (type : String) :
    (start type).remaining t ≤ t.hierarchy.length + 1 :=
  Nat.add_le_add_right (List.length_filter_le _ _) 1

end Ascent

theorem mem_ancestors {sub super : String} : super ∈ t.ancestors sub ↔ t.Inherits sub super := by
  rw [ancestors, Sorted.mem_ofList]
  exact (Ascent.explores_start t sub).mem_ascend

theorem isSubtype_iff {sub super : String} :
    t.isSubtype sub super = true ↔ t.Inherits sub super := by
  rw [isSubtype, Bool.or_eq_true, decide_eq_true_eq, List.contains_iff_mem, mem_ancestors]
  exact or_iff_right_of_imp fun h => h ▸ .refl

@[simp] theorem isSubtype_refl (type : String) : t.isSubtype type type = true :=
  isSubtype_iff.2 .refl

theorem isSubtype_trans {a b c : String} (hab : t.isSubtype a b = true)
    (hbc : t.isSubtype b c = true) : t.isSubtype a c = true :=
  isSubtype_iff.2 ((isSubtype_iff.1 hab).trans (isSubtype_iff.1 hbc))

theorem FromText.mem_declared_of_isSubtype (h : t.FromText) {sub super : String}
    (hsub : t.isSubtype sub super = true) (hne : sub ≠ super) : sub ∈ t.declared := by
  obtain heq | ⟨middle, hparent, -⟩ := (isSubtype_iff.1 hsub).cases_head
  · exact absurd heq hne
  · obtain ⟨p, hp, hmem, -⟩ := mem_parents.1 hparent
    exact h.mem_declared ⟨p, hp, Or.inr hmem⟩

theorem FromText.ne_implicitType_of_isSubtype (h : t.FromText) (htyping : t.usesTyping = true)
    {sub super : String} (hsub : t.isSubtype sub super = true) (hsuper : super ≠ implicitType) :
    sub ≠ implicitType := by
  rintro rfl
  have hdeclared := contains_eq_true.2 (h.mem_declared_of_isSubtype hsub (Ne.symm hsuper))
  simp [h.separate htyping] at hdeclared

/-- A subtype may stand wherever the type may, also where every object may. -/
theorem FromText.isConsistent_of_isSubtype (h : t.FromText) {sub super expected : String}
    (hsub : t.isSubtype sub super = true) (hsuper : t.isConsistent super expected = true) :
    t.isConsistent sub expected = true := by
  simp only [isConsistent, Bool.or_eq_true, Bool.and_eq_true, decide_eq_true_eq] at hsuper ⊢
  rcases hsuper with hexpected | ⟨⟨hobject, htyping⟩, hne⟩
  · exact Or.inl (isSubtype_trans hsub hexpected)
  · exact Or.inr ⟨⟨hobject, htyping⟩, h.ne_implicitType_of_isSubtype htyping hsub hne⟩

theorem Inherits.applyAll {sub super : String} (h : t.Inherits sub super)
    (more : List Declaration) : (t.applyAll more).Inherits sub super := by
  induction h with
  | refl => exact Relation.ReflTransGen.refl
  | tail _ hparent ih => exact ih.tail (mem_parents_applyAll.2 (Or.inr hparent))

theorem IsMadeBy.inherits_iff {ds : List Declaration} (h : t.IsMadeBy ds) {sub super : String} :
    t.Inherits sub super ↔ Relation.ReflTransGen (Declaration.Links ds) sub super := by
  have hlinks : (fun sub super => super ∈ t.parents sub) = Declaration.Links ds :=
    funext fun sub => funext fun super => propext h.mem_parents
  rw [Inherits, hlinks]

/-- In a table made by declarations the search for supertypes comes to an end, and the ancestors of
a type are those that declared links lead to. So to be a subtype is the closure of what was declared,
also round cycles and for types that were not declared; further declarations only add to it. All types
of the hierarchy are declared, each once. -/
theorem ancestors_of_isMadeBy {ds : List Declaration} (h : t.IsMadeBy ds) :
    (∀ type, ∃ n ≤ t.hierarchy.length + 1,
      ((Ascent.step t)^[n] (.start type)).frontier = [] ∧
        t.ancestors type = Sorted.ofList ((Ascent.step t)^[n] (.start type)).reached) ∧
    (∀ sub super,
      super ∈ t.ancestors sub ↔ Relation.ReflTransGen (Declaration.Links ds) sub super) ∧
    (∀ sub super, t.isSubtype sub super = true ↔
      Relation.ReflTransGen (Declaration.Links ds) sub super) ∧
    (∀ type, t.isSubtype type type = true) ∧
    (∀ a b c, t.isSubtype a b = true → t.isSubtype b c = true → t.isSubtype a c = true) ∧
    (∀ more sub super, t.isSubtype sub super = true →
      (t.applyAll more).isSubtype sub super = true) ∧
    t.declared.Nodup ∧
    ∀ p ∈ t.hierarchy, p.1 ∈ t.declared ∧ ∀ sub ∈ p.2, sub ∈ t.declared := by
  -- declared links and immediate supertypes are the same, so all follows from `mem_ancestors`
  refine ⟨fun type => ?_, fun sub super => ?_, fun sub super => ?_, isSubtype_refl,
    fun a b c => isSubtype_trans, fun more sub super hsub => ?_, h.wellFormed.nodup, fun p hp => ?_⟩
  · obtain ⟨n, hn, hend, hreached⟩ := Ascent.exists_iterate_step t (.start type)
    exact ⟨n, Nat.le_trans hn (Ascent.remaining_start t type), hend, congrArg Sorted.ofList hreached⟩
  · exact mem_ancestors.trans h.inherits_iff
  · exact isSubtype_iff.trans h.inherits_iff
  · exact isSubtype_iff.2 ((isSubtype_iff.1 hsub).applyAll more)
  · exact ⟨h.wellFormed.mentioned _ ⟨p, hp, Or.inl rfl⟩,
      fun sub hsub => h.wellFormed.mentioned _ ⟨p, hp, Or.inr hsub⟩⟩

def cyclic : List Declaration := [.group ["a"] "b", .type "c", .group ["b", "b"] "a", .group ["a"] "d"]

theorem ancestors_of_isMadeBy_cyclic :
    (typed.applyAll cyclic).IsMadeBy cyclic ∧
      ((typed.applyAll cyclic).isSubtype "b" "d" = true ↔
        Relation.ReflTransGen (Declaration.Links cyclic) "b" "d") ∧
      (typed.applyAll cyclic).isSubtype "b" "d" = true ∧
      (typed.applyAll cyclic).isSubtype "d" "b" = false := by
  have hmade : (typed.applyAll cyclic).IsMadeBy cyclic := Or.inr rfl
  obtain ⟨-, -, hsubtype, -⟩ := ancestors_of_isMadeBy hmade
  exact ⟨hmade, hsubtype "b" "d", by decide +kernel, by decide +kernel⟩

end Pddl.Types
