import Mathlib.Tactic.Tauto
import Pddl.Proofs.Sorted
import Pddl.Types

namespace Pddl

namespace Types

theorem contains_eq_true {t : Types} {type : String} :
    t.contains type = true ↔ type ∈ t.declared := by
  simp [contains]

theorem mem_declare {t : Types} {name type : String} :
    type ∈ (t.declare name).declared ↔ name = type ∨ type ∈ t.declared := by
  unfold declare
  split
  · rename_i hknown
    rw [contains_eq_true] at hknown
    constructor
    · exact Or.inr
    · rintro (rfl | htype)
      · exact hknown
      · exact htype
  · simp [or_comm, eq_comm]

@[simp] theorem usesTyping_declare (t : Types) (name : String) :
    (t.declare name).usesTyping = t.usesTyping := by
  unfold declare
  split <;> rfl

@[simp] theorem hierarchy_declare (t : Types) (name : String) :
    (t.declare name).hierarchy = t.hierarchy := by
  unfold declare
  split <;> rfl

theorem declare_of_not_mem {t : Types} {name : String} (h : name ∉ t.declared) :
    t.declare name = { t with declared := t.declared ++ [name] } := by
  rw [declare, if_neg (fun hknown => h (contains_eq_true.1 hknown))]

theorem nodup_declare {t : Types} (h : t.declared.Nodup) (name : String) :
    (t.declare name).declared.Nodup := by
  by_cases hmem : name ∈ t.declared
  · rwa [declare, if_pos (contains_eq_true.2 hmem)]
  · rw [declare_of_not_mem hmem]
    refine List.nodup_append.2 ⟨h, by simp, ?_⟩
    rintro a ha b hb rfl
    exact hmem (List.mem_singleton.1 hb ▸ ha)

/-- Whether the type has a supertype or a subtype. -/
def Mentions (entries : List (String × List String)) (type : String) : Prop :=
  ∃ p ∈ entries, p.1 = type ∨ type ∈ p.2

@[simp] theorem mentions_nil (type : String) : ¬Mentions [] type := by
  simp [Mentions]

@[simp] theorem mentions_cons (p : String × List String) (entries : List (String × List String))
    (type : String) :
    Mentions (p :: entries) type ↔ (p.1 = type ∨ type ∈ p.2) ∨ Mentions entries type := by
  simp [Mentions]

theorem mentions_insertSubtypes {entries : List (String × List String)} {supertype type : String}
    {subtypes : List String} :
    Mentions (insertSubtypes supertype subtypes entries) type ↔
      supertype = type ∨ type ∈ subtypes ∨ Mentions entries type := by
  induction entries with
  | nil => simp [insertSubtypes, Sorted.mem_ofList]
  | cons p entries ih =>
    obtain ⟨other, known⟩ := p
    rw [insertSubtypes]
    split
    · simp [Sorted.mem_ofList, or_assoc]
    · rename_i heq
      obtain rfl := Std.LawfulEqCmp.eq_of_compare heq
      by_cases htype : supertype = type <;> simp [htype, Sorted.mem_insertAll, or_assoc]
    · simp only [mentions_cons, ih, or_left_comm, or_assoc]

theorem mem_parents {t : Types} {sub super : String} :
    super ∈ t.parents sub ↔ ∃ p ∈ t.hierarchy, sub ∈ p.2 ∧ p.1 = super := by
  simp [parents, and_assoc]

end Types

/-- A change of a table of types. -/
inductive Declaration where
  | type (name : String)
  | group (subtypes : List String) (supertype : String)

namespace Declaration

def apply (t : Types) : Declaration → Types
  | .type name => t.declare name
  | .group subtypes supertype => t.addSubtypes subtypes supertype

/-- Whether one of the declarations makes `sub` an immediate subtype of `super`. -/
def Links (ds : List Declaration) (sub super : String) : Prop :=
  ∃ subtypes, Declaration.group subtypes super ∈ ds ∧ sub ∈ subtypes

theorem links_group {subtypes : List String} {supertype sub super : String} :
    Links [.group subtypes supertype] sub super ↔ sub ∈ subtypes ∧ supertype = super := by
  simp only [Links, List.mem_singleton, Declaration.group.injEq]
  constructor
  · rintro ⟨_, ⟨rfl, rfl⟩, hsub⟩
    exact ⟨hsub, rfl⟩
  · rintro ⟨hsub, rfl⟩
    exact ⟨subtypes, ⟨rfl, rfl⟩, hsub⟩

theorem links_cons {d : Declaration} {ds : List Declaration} {sub super : String} :
    Links (d :: ds) sub super ↔ Links [d] sub super ∨ Links ds sub super := by
  simp only [Links, List.mem_cons, List.not_mem_nil, or_false, or_and_right, exists_or]

end Declaration

namespace Types

variable {t : Types}

def applyAll (t : Types) (ds : List Declaration) : Types := ds.foldl Declaration.apply t

theorem mem_declared_foldl {names : List String} {type : String} :
    type ∈ (names.foldl declare t).declared ↔ type ∈ names ∨ type ∈ t.declared := by
  induction names generalizing t with
  | nil => simp
  | cons name names ih =>
    rw [List.foldl_cons, ih, mem_declare, List.mem_cons, eq_comm (a := name)]
    tauto

theorem hierarchy_foldl_declare (names : List String) :
    (names.foldl declare t).hierarchy = t.hierarchy := by
  induction names generalizing t with
  | nil => rfl
  | cons name names ih => rw [List.foldl_cons, ih, hierarchy_declare]

theorem hierarchy_addSubtypes (subtypes : List String) (supertype : String) :
    (t.addSubtypes subtypes supertype).hierarchy =
      insertSubtypes supertype subtypes t.hierarchy := by
  simp only [addSubtypes, hierarchy_foldl_declare, hierarchy_declare]

/-- What holds of every table that declarations make: a type is declared once, and the hierarchy is
about declared types only. -/
structure WellFormed (t : Types) : Prop where
  nodup : t.declared.Nodup
  mentioned : ∀ type, Mentions t.hierarchy type → type ∈ t.declared

namespace WellFormed

theorem declare (h : t.WellFormed) (name : String) : (t.declare name).WellFormed where
  nodup := nodup_declare h.nodup name
  mentioned type htype := by
    rw [hierarchy_declare] at htype
    exact mem_declare.2 (Or.inr (h.mentioned type htype))

theorem foldl_declare (h : t.WellFormed) (names : List String) :
    (names.foldl Types.declare t).WellFormed := by
  induction names generalizing t with
  | nil => exact h
  | cons name names ih => exact ih (h.declare name)

theorem addSubtypes (h : t.WellFormed) (subtypes : List String) (supertype : String) :
    (t.addSubtypes subtypes supertype).WellFormed where
  nodup := ((h.declare supertype).foldl_declare subtypes).nodup
  mentioned type htype := by
    rw [hierarchy_addSubtypes, mentions_insertSubtypes] at htype
    refine mem_declared_foldl.2 ?_
    rw [mem_declare]
    rcases htype with hsuper | hsub | hold
    · exact Or.inr (Or.inl hsuper)
    · exact Or.inl hsub
    · exact Or.inr (Or.inr (h.mentioned type hold))

theorem apply (h : t.WellFormed) (d : Declaration) : (d.apply t).WellFormed := by
  cases d with
  | type name => exact h.declare name
  | group subtypes supertype => exact h.addSubtypes subtypes supertype

theorem applyAll (h : t.WellFormed) (ds : List Declaration) : (t.applyAll ds).WellFormed := by
  induction ds generalizing t with
  | nil => exact h
  | cons d ds ih => exact ih (h.apply d)

end WellFormed

theorem mem_insertSubtypes_iff {entries : List (String × List String)} {supertype sub super : String}
    {subtypes : List String} :
    (∃ p ∈ insertSubtypes supertype subtypes entries, sub ∈ p.2 ∧ p.1 = super) ↔
      (sub ∈ subtypes ∧ supertype = super) ∨ ∃ p ∈ entries, sub ∈ p.2 ∧ p.1 = super := by
  induction entries with
  | nil => simp [insertSubtypes, Sorted.mem_ofList]
  | cons p entries ih =>
    obtain ⟨other, known⟩ := p
    rw [insertSubtypes]
    split
    · simp [Sorted.mem_ofList]
    · rename_i heq
      obtain rfl := Std.LawfulEqCmp.eq_of_compare heq
      simp only [List.mem_cons, exists_eq_or_imp, Sorted.mem_insertAll]
      tauto
    · simp only [List.mem_cons, exists_eq_or_imp, ih, or_left_comm]

theorem mem_parents_apply {d : Declaration} {sub super : String} :
    super ∈ (d.apply t).parents sub ↔ Declaration.Links [d] sub super ∨ super ∈ t.parents sub := by
  simp only [mem_parents]
  cases d with
  | type name => simp [Declaration.apply, Declaration.Links]
  | group subtypes supertype =>
    rw [Declaration.apply, hierarchy_addSubtypes, mem_insertSubtypes_iff, Declaration.links_group]

theorem mem_parents_applyAll {ds : List Declaration} {sub super : String} :
    super ∈ (t.applyAll ds).parents sub ↔ Declaration.Links ds sub super ∨ super ∈ t.parents sub := by
  induction ds generalizing t with
  | nil => simp [applyAll, Declaration.Links]
  | cons d ds ih =>
    have hstep : t.applyAll (d :: ds) = (d.apply t).applyAll ds := rfl
    rw [hstep, ih, mem_parents_apply, @Declaration.links_cons d ds]
    tauto

/-- Whether the table is what the declarations make of an empty one, without or with typing. -/
def IsMadeBy (t : Types) (ds : List Declaration) : Prop :=
  t = untyped.applyAll ds ∨ t = typed.applyAll ds

namespace IsMadeBy

variable {ds : List Declaration}

theorem wellFormed (h : t.IsMadeBy ds) : t.WellFormed := by
  have huntyped : untyped.WellFormed := ⟨by decide, by simp [untyped]⟩
  have htyped : typed.WellFormed := ⟨by decide, by simp [typed]⟩
  rcases h with rfl | rfl
  · exact huntyped.applyAll ds
  · exact htyped.applyAll ds

theorem mem_parents (h : t.IsMadeBy ds) {sub super : String} :
    super ∈ t.parents sub ↔ Declaration.Links ds sub super := by
  rcases h with rfl | rfl
  · exact mem_parents_applyAll.trans (or_iff_left (by simp [parents, untyped]))
  · exact mem_parents_applyAll.trans (or_iff_left (by simp [parents, typed]))

end IsMadeBy

end Types

end Pddl
