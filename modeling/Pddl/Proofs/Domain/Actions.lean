import Mathlib.Data.List.Find
import Pddl.Domain.Determinize
import Pddl.Proofs.Domain.Reader

namespace Pddl

/-- The domains that are read, and those that are made of them by determinizing. -/
inductive Domain.Obtained : Domain → Prop where
  | read {config : Config} {text : String} {d : Domain}
      (h : (Domain.read config text).result = .ok d) : Obtained d
  | determinized {d e : Domain} (hd : Obtained d) (h : d.determinize = .ok e) : Obtained e

theorem Domain.determinize_eq_ok {d e : Domain} :
    d.determinize = .ok e ↔ d.isProbabilistic = true ∧
      d.withOperators (d.operators.map Operator.determinize) = e := by
  cases h : d.isProbabilistic <;> simp [determinize, h]

/-- Whether every operator of the domain has an action predicate of its name behind the declared
predicates, and nothing else has that name. -/
structure Domain.Doubles (d : Domain) (declared : List Signature) : Prop where
  predicates : d.predicates = declared ++ d.operators.map Operator.signature
  fresh : ∀ o ∈ d.operators, ∀ q ∈ declared, q.name ≠ o.name
  nodup : (d.operators.map Operator.name).Nodup
  actions : ∀ name, d.isActionPredicate name = true ↔ name ∈ d.operators.map Operator.name

namespace Draft

variable {t : Draft} {d : Domain} {predicates all : List Signature} {os : List Operator}

theorem nodup_of_withOperatorSignatures (h : withOperatorSignatures predicates os = .ok all) :
    (os.map Operator.name).Nodup := by
  induction os generalizing predicates with
  | nil => exact List.nodup_nil
  | cons o os ih =>
    simp only [withOperatorSignatures, ite_error_eq_ok] at h
    obtain ⟨-, hnames⟩ := withOperatorSignatures_eq_ok h.2
    refine List.nodup_cons.2 ⟨fun hmem => ?_, ih h.2⟩
    -- the signature of the operator is among the predicates that the others have to differ from
    obtain ⟨q, hq, hname⟩ := List.mem_map.1 hmem
    exact hnames q hq o.signature (by simp) hname.symm

theorem doubles_of_build (h : t.build = .ok d) (hactions : d.operatorsAsActions = true) :
    d.Doubles t.predicates := by
  obtain ⟨all, actions, hsettle, -, rfl⟩ := build_eq_ok.1 h
  rcases settleActions_cases hsettle with ⟨-, hall, rfl⟩ | ⟨hfalse, -⟩
  · obtain ⟨hpredicates, hnames⟩ := withOperatorSignatures_eq_ok hall
    refine ⟨hpredicates, hnames, nodup_of_withOperatorSignatures hall, fun name => ?_⟩
    simp only [Domain.isActionPredicate, finish, List.contains_iff_mem, Sorted.mem_ofList]
  · exact absurd (hactions.symm.trans hfalse) (by simp)

end Draft

namespace Domain

variable {d : Domain} {declared : List Signature}

/-- The action predicate of a name is the signature of the operator of that name. -/
theorem Doubles.find?_action (h : d.Doubles declared) (name : String) :
    (d.predicates.find? fun q => q.name = name && d.isActionPredicate q.name) =
      (d.operator? name).map Operator.signature := by
  have hdeclared :
      (declared.find? fun q => q.name = name && d.isActionPredicate q.name) = none := by
    refine List.find?_eq_none.2 fun q hq haction => ?_
    simp only [Bool.and_eq_true, decide_eq_true_eq, h.actions] at haction
    obtain ⟨o, ho, hname⟩ := List.mem_map.1 haction.2
    exact h.fresh o ho q hq hname.symm
  rw [h.predicates, List.find?_append, hdeclared, Option.none_or, List.find?_map, operator?]
  refine congrArg _ (List.find?_congr fun o ho => ?_)
  have haction : d.isActionPredicate o.name = true := (h.actions _).2 (List.mem_map_of_mem ho)
  show (decide (o.name = name) && d.isActionPredicate o.name) = decide (o.name = name)
  rw [haction, Bool.and_true]

theorem Doubles.withOperators (h : d.Doubles declared) {f : Operator → Operator}
    (hf : ∀ o, (f o).signature = o.signature) :
    (d.withOperators (d.operators.map f)).Doubles declared := by
  have hname : ∀ o, (f o).name = o.name := fun o => congrArg Signature.name (hf o)
  have hnames : (d.operators.map f).map Operator.name = d.operators.map Operator.name := by
    rw [List.map_map]
    exact List.map_congr_left fun o _ => hname o
  have hsignatures : (d.operators.map f).map Operator.signature =
      d.operators.map Operator.signature := by
    rw [List.map_map]
    exact List.map_congr_left fun o _ => hf o
  refine ⟨?_, List.forall_mem_map.2 fun o ho q hq => ?_, ?_, fun name => ?_⟩
  · exact h.predicates.trans (congrArg _ hsignatures.symm)
  · rw [hname]
    exact h.fresh o ho q hq
  · exact hnames ▸ h.nodup
  · exact (h.actions name).trans (by rw [← hnames]; rfl)

theorem Obtained.doubles (h : d.Obtained) (hactions : d.operatorsAsActions = true) :
    ∃ declared, d.Doubles declared := by
  induction h with
  | read h =>
    obtain ⟨t, -, hbuild⟩ := draft_of_read h
    exact ⟨_, Draft.doubles_of_build hbuild hactions⟩
  | determinized _ h ih =>
    obtain ⟨-, rfl⟩ := determinize_eq_ok.1 h
    obtain ⟨declared, hdoubles⟩ := ih hactions
    exact ⟨declared, hdoubles.withOperators fun _ => rfl⟩

end Domain

end Pddl
