import Pddl.Proofs.Bindings
import Pddl.Proofs.Formula.Soundness
import Pddl.Proofs.Subtype

namespace Pddl

theorem Numeric.terms_substitute (b : Bindings) (v : Numeric) :
    (v.substitute b).terms = v.terms.map (Application.substitute b) := by
  induction v with
  | number v => rfl
  | function t => rfl
  | binary o l r ihl ihr => simp [substitute, terms, ihl, ihr]

namespace Node

/-- The node with other arguments in place of those that no quantifier around it binds. -/
def substitute (b : Bindings) (n : Node) : Node :=
  ⟨n.enclosing, n.formula.substitute (b.without n.enclosing)⟩

variable {b : Bindings}

theorem atoms_substitute (n : Node) :
    (n.substitute b).atoms = n.atoms.map (Application.substitute (b.without n.enclosing)) := by
  obtain ⟨enclosing, f⟩ := n
  cases f <;> rfl

theorem terms_substitute (n : Node) :
    (n.substitute b).terms = n.terms.map (Application.substitute (b.without n.enclosing)) := by
  obtain ⟨enclosing, f⟩ := n
  cases f <;> simp [substitute, Formula.substitute, terms, Numeric.terms_substitute]

end Node

namespace Formula

theorem parts_substitute (f : Formula) (b : Bindings) (enclosing : List Entity) :
    (f.substitute (b.without enclosing)).parts enclosing =
      (f.parts enclosing).map (Node.substitute b) := by
  cases f <;>
    simp [substitute, parts, Node.substitute, Bindings.without_without, substituteAll_eq_map,
      substituteOutcomes_eq_map]

/-- The nodes stay, with their quantifiers, and each is substituted in. -/
theorem nodes_substitute (f : Formula) (b : Bindings) (enclosing : List Entity) :
    (f.substitute (b.without enclosing)).nodes enclosing =
      (f.nodes enclosing).map (Node.substitute b) := by
  induction f using induct_parts generalizing enclosing with
  | h f ih =>
    rw [nodes_eq, nodes_eq, parts_substitute, List.map_cons, List.map_flatMap, List.flatMap_map]
    congr 1
    exact List.flatMap_congr fun m hm => ih enclosing m hm m.enclosing

end Formula

theorem Node.arguments_substitute (b : Bindings) (n : Node) :
    (n.substitute b).arguments = n.arguments.map (b.without n.enclosing).apply := by
  obtain ⟨enclosing, f⟩ := n
  cases f <;>
    simp [substitute, Formula.substitute, arguments, atoms, terms, Numeric.terms_substitute,
      Application.substitute, List.flatMap_map, List.map_flatMap]

namespace Formula

theorem freeAmong_apply {b : Bindings} (h : b.IsGround) (enclosing : List Entity) (e : Entity) :
    freeAmong (enclosing.map Entity.name) [(b.without enclosing).apply e] =
      (freeAmong (enclosing.map Entity.name) [e]).filter fun e => (b.find? e.name).isNone := by
  by_cases hbound : ∃ v ∈ enclosing, v.name = e.name
  · have hnone : freeAmong (enclosing.map Entity.name) [e] = [] := by simp [freeAmong, hbound]
    rw [Bindings.apply_without_of_bound hbound, hnone, List.filter_nil]
  · have hfree : ∀ v ∈ enclosing, v.name ≠ e.name := by simpa using hbound
    rw [Bindings.apply_without_of_free hfree, Bindings.apply]
    cases hvalue : b.find? e.name with
    | none =>
      rw [Option.getD_none, eq_comm, List.filter_eq_self]
      intro d hd
      obtain rfl := List.mem_singleton.1 (mem_freeAmong.1 hd).1
      rw [hvalue, Option.isNone_none]
    | some x =>
      have hnone : freeAmong (enclosing.map Entity.name) [x] = [] := by
        simp [freeAmong, h e.name x hvalue]
      rw [Option.getD_some, hnone, eq_comm, List.filter_eq_nil_iff]
      intro d hd
      obtain rfl := List.mem_singleton.1 (mem_freeAmong.1 hd).1
      simp [hvalue]

theorem freeAmong_map_apply {b : Bindings} (h : b.IsGround) (enclosing es : List Entity) :
    freeAmong (enclosing.map Entity.name) (es.map (b.without enclosing).apply) =
      (freeAmong (enclosing.map Entity.name) es).filter fun e => (b.find? e.name).isNone := by
  induction es with
  | nil => rfl
  | cons e es ih =>
    rw [List.map_cons, ← List.singleton_append, freeAmong_append, freeAmong_apply h, ih,
      ← List.filter_append, ← freeAmong_append, List.singleton_append]

/-- What has a value that is not a variable is no longer free, and all else stays free. -/
theorem freeVariables_substitute (f : Formula) {b : Bindings} (h : b.IsGround) :
    (f.substitute b).freeVariables = f.freeVariables.filter fun e => (b.find? e.name).isNone := by
  have hnodes : (f.substitute b).nodes [] = (f.nodes []).map (Node.substitute b) := by
    have hbelow := f.nodes_substitute b []
    rwa [Bindings.without_nil] at hbelow
  have hoccurrences : (f.substitute b).freeOccurrences [] =
      (f.freeOccurrences []).filter fun e => (b.find? e.name).isNone := by
    calc (f.substitute b).freeOccurrences []
        = (f.nodes []).flatMap fun n => freeAmong (n.enclosing.map Entity.name)
            (n.arguments.map (b.without n.enclosing).apply) := by
          rw [← List.map_nil, freeOccurrences_eq_flatMap, hnodes, List.flatMap_map]
          exact List.flatMap_congr fun n _ => by rw [Node.arguments_substitute]; rfl
      _ = (f.nodes []).flatMap fun n => (freeAmong (n.enclosing.map Entity.name)
            n.arguments).filter fun e => (b.find? e.name).isNone :=
          List.flatMap_congr fun n _ => freeAmong_map_apply h n.enclosing n.arguments
      _ = (f.freeOccurrences []).filter fun e => (b.find? e.name).isNone := by
          rw [← List.filter_flatMap, ← freeOccurrences_eq_flatMap, List.map_nil]
  rw [freeVariables, hoccurrences, Sorted.ofList_filter]
  rfl

end Formula

section Types

variable {symbols : Symbols} {scope : Scope} {b : Bindings}

theorem Application.Fits.substitute {a : Application} {signatures : List Signature} {types : Types}
    (h : a.Fits signatures types) (htypes : types.FromText)
    (hsub : ∀ e ∈ a.arguments, types.isSubtype (b.apply e).type e.type = true) :
    (a.substitute b).Fits signatures types := by
  obtain ⟨s, hs, harity, hconsistent⟩ := h
  refine ⟨s, hs, by simpa [Application.substitute] using harity, fun p hp => ?_⟩
  rw [Application.substitute, List.zip_map_right] at hp
  obtain ⟨q, hq, rfl⟩ := List.mem_map.1 hp
  exact htypes.isConsistent_of_isSubtype (hsub q.2 (List.of_mem_zip hq).2) (hconsistent q hq)

/-- Whether all applications in the formula fit their declarations. -/
def Formula.Fits (f : Formula) (symbols : Symbols) : Prop :=
  ∀ n ∈ f.nodes [], (∀ a ∈ n.atoms, a.Fits symbols.predicates symbols.types) ∧
    ∀ a ∈ n.terms, a.Fits symbols.functions symbols.types

/-- Quantified variables keep their types, and all other names have a value of a subtype. -/
theorem Node.Sound.isSubtype_apply {n : Node} (h : n.Sound symbols scope)
    (hb : ∀ e, scope.Sees e → symbols.types.isSubtype (b.apply e).type e.type = true) :
    ∀ e ∈ n.arguments, symbols.types.isSubtype ((b.without n.enclosing).apply e).type e.type := by
  intro e he
  by_cases hbound : ∃ v ∈ n.enclosing, v.name = e.name
  · rw [Bindings.apply_without_of_bound hbound, Types.isSubtype_refl]
  · have hfree : ∀ v ∈ n.enclosing, v.name ≠ e.name := by simpa using hbound
    rw [Bindings.apply_without_of_free hfree]
    rcases h.arguments e he with hsees | henclosing
    · exact hb e hsees
    · exact absurd rfl (hfree e henclosing)

theorem Node.mem_arguments_of_mem {n : Node} {a : Application} (ha : a ∈ n.atoms ++ n.terms)
    {e : Entity} (he : e ∈ a.arguments) : e ∈ n.arguments := by
  obtain ⟨enclosing, f⟩ := n
  cases f with
  | equal | different => simp [Node.atoms, Node.terms] at ha
  | _ => exact List.mem_flatMap.2 ⟨a, ha, he⟩

/-- In a sound formula values of subtypes leave every application fitting. -/
theorem Formula.fits_substitute {f : Formula} (h : ∀ n ∈ f.nodes [], n.Sound symbols scope)
    (htypes : symbols.types.FromText)
    (hb : ∀ e, scope.Sees e → symbols.types.isSubtype (b.apply e).type e.type = true) :
    (f.substitute b).Fits symbols := by
  have hnodes := f.nodes_substitute b []
  rw [Bindings.without_nil] at hnodes
  rw [Formula.Fits, hnodes, List.forall_mem_map]
  intro n hn
  rw [Node.atoms_substitute, Node.terms_substitute, List.forall_mem_map, List.forall_mem_map]
  have hsub := (h n hn).isSubtype_apply hb
  constructor
  · intro a ha
    refine ((h n hn).atoms a ha).substitute htypes fun e he => hsub e ?_
    exact Node.mem_arguments_of_mem (List.mem_append_left _ ha) he
  · intro a ha
    refine ((h n hn).terms a ha).substitute htypes fun e he => hsub e ?_
    exact Node.mem_arguments_of_mem (List.mem_append_right _ ha) he

end Types

end Pddl
