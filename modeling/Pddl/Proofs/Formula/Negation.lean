import Mathlib.Data.List.Nodup
import Mathlib.Data.Set.Function
import Pddl.Proofs.Formula.Expansion
import Pddl.Proofs.Formula.Satisfaction

namespace Pddl

universe u v

variable {Ω : Type u} {V : Type v}

/-- Two quantifiers, one inside the other, choose as one does that quantifies over all variables. -/
theorem Environment.rebind_rebind (ρ : Environment Ω) {w : Entity} {vs : List Entity}
    (hw : w.name ∉ vs.map Entity.name) (first choice : String → Ω) :
    (ρ.rebind [w] first).rebind vs choice =
      ρ.rebind (w :: vs) (Function.update choice w.name (first w.name)) := by
  have hother : ∀ v ∈ vs, v.name ≠ w.name := by simpa using hw
  funext e
  by_cases hvs : ∃ v ∈ vs, v.name = e.name
  · obtain ⟨v, hv, hname⟩ := hvs
    have hne : e.name ≠ w.name := hname ▸ hother v hv
    rw [rebind_of_bound ⟨v, hv, hname⟩, rebind_of_bound ⟨v, List.mem_cons_of_mem w hv, hname⟩,
      Function.update_of_ne hne]
  · have hfree : ∀ v ∈ vs, v.name ≠ e.name := by simpa using hvs
    rw [rebind_of_free hfree]
    by_cases hname : w.name = e.name
    · rw [rebind_of_bound ⟨w, List.mem_singleton_self w, hname⟩,
        rebind_of_bound ⟨w, List.mem_cons_self, hname⟩, ← hname, Function.update_self]
    · rw [rebind_of_free (by simpa using hname),
        rebind_of_free (List.forall_mem_cons.2 ⟨hname, hfree⟩)]

namespace Formula

variable {I : Interpretation Ω V} {s : State Ω V}

theorem satisfied_forEach {binders : List Entity} (hnodup : (binders.map Entity.name).Nodup)
    (body : Formula) (ρ : Environment Ω) :
    (forEach binders body).Satisfied I s ρ ↔
      ∀ choice : String → Ω, (∀ v ∈ binders, I.contains v.type (choice v.name)) →
        body.Satisfied I s (ρ.rebind binders choice) := by
  induction binders generalizing ρ with
  | nil =>
    -- any choice will do, and there is one since entities stand for something
    exact ⟨fun h _ _ => h, fun h => h (fun name => ρ ⟨name, name⟩) (by simp)⟩
  | cons w vs ih =>
    rw [List.map_cons, List.nodup_cons] at hnodup
    have hother : ∀ v ∈ vs, v.name ≠ w.name := by simpa using hnodup.1
    -- the object chosen for `w` joins the choice for the others, none of which has its name
    rw [forEach, List.foldr_cons, ← forEach, Satisfied]
    simp only [ih hnodup.2, List.forall_mem_singleton, ρ.rebind_rebind hnodup.1]
    constructor
    · intro h choice hchoice
      rw [List.forall_mem_cons] at hchoice
      have hbody := h choice hchoice.1 choice hchoice.2
      rwa [Function.update_eq_self] at hbody
    · intro h first hfirst choice hchoice
      apply h
      rw [List.forall_mem_cons, Function.update_self]
      refine ⟨hfirst, fun v hv => ?_⟩
      rw [Function.update_of_ne (hother v hv)]
      exact hchoice v hv

end Formula

namespace Application

def unseen (a : Application) (seen : List Entity) : List Entity :=
  a.arguments.filter fun e => e.isVariable ∧ e ∉ seen

/-- Whether the application fails for all objects chosen for its unseen variables, apart from
choices of an object that a seen variable stands for. -/
def FailsApart (a : Application) (seen : List Entity) (I : Interpretation Ω V) (s : State Ω V)
    (ρ : Environment Ω) : Prop :=
  ∀ choice : Environment Ω, (∀ v ∈ a.unseen seen, I.contains v.type (choice v)) →
    (∃ v ∈ a.unseen seen, ∃ w ∈ seen, choice v = ρ w) ∨
      ¬s.holds a.head (a.arguments.map fun e => if e ∈ a.unseen seen then choice e else ρ e)

variable {a : Application} {seen others : List Entity} {I : Interpretation Ω V} {s : State Ω V}
  {ρ : Environment Ω}

theorem filter_variableArguments (a : Application) (seen : List Entity) :
    a.variableArguments.filter (!seen.contains ·) = a.unseen seen := by
  rw [variableArguments, List.filter_filter, unseen]
  exact List.filter_congr fun v _ => by simp [and_comm]

theorem mem_unseen {v : Entity} :
    v ∈ a.unseen seen ↔ v ∈ a.arguments ∧ v.isVariable = true ∧ v ∉ seen := by
  rw [unseen, List.mem_filter, decide_eq_true_iff]

theorem unseen_congr (h : ∀ v, v ∈ seen ↔ v ∈ others) : a.unseen seen = a.unseen others := by
  simp only [unseen, h]

theorem failsApart_congr (h : ∀ v, v ∈ seen ↔ v ∈ others) :
    a.FailsApart seen I s ρ ↔ a.FailsApart others I s ρ := by
  simp only [FailsApart, unseen_congr h, h]

theorem failsApart_of_seen (h : ∀ v ∈ a.arguments, v.isVariable = true → v ∈ seen) :
    a.FailsApart seen I s ρ ↔ ¬s.holds a.head (a.arguments.map ρ) := by
  have hnone : a.unseen seen = [] := by
    rw [unseen, List.filter_eq_nil_iff]
    intro v hv
    simpa using h v hv
  simp only [FailsApart, hnone]
  constructor
  · intro hfails
    simpa using hfails ρ (by simp)
  · intro hfails choice _
    simpa using hfails

end Application

instance : Nonempty Entity := ⟨⟨"", implicitType⟩⟩

theorem exists_function_of_nodup {α κ : Type} {β : Type u} [Nonempty α] {as : List α} {key : α → κ}
    (h : (as.map key).Nodup) (value : α → β) : ∃ f : κ → β, ∀ a ∈ as, f (key a) = value a := by
  have hinjective : Set.InjOn key {a | a ∈ as} :=
    fun a ha b hb => List.inj_on_of_nodup_map h ha hb
  exact ⟨value ∘ Function.invFunOn key {a | a ∈ as},
    fun a ha => congrArg value (hinjective.leftInvOn_invFunOn ha)⟩

namespace Formula

section Copies

variable {copies : List (Entity × Entity)} {taken : List String} {vs : List Entity}
  {ρ chosen : Environment Ω} {choice : String → Ω}

theorem rebind_copy (hmatch : ∀ d ∈ copies, choice d.2.name = chosen d.1) {d : Entity × Entity}
    (hd : d ∈ copies) : ρ.rebind (copies.map Prod.snd) choice d.2 = chosen d.1 := by
  rw [Environment.rebind_of_bound ⟨d.2, List.mem_map_of_mem hd, rfl⟩, hmatch d hd]

theorem AreCopies.rebind_other (h : AreCopies copies taken vs)
    (hvs : ∀ v ∈ vs, v.isVariable = true) {e : Entity}
    (he : e.isVariable = true → e.name ∈ taken) :
    ρ.rebind (copies.map Prod.snd) choice e = ρ e := by
  apply Environment.rebind_of_free
  rw [List.forall_mem_map]
  intro d hd hname
  have hvariable : e.isVariable = true := by
    rw [Entity.isVariable, ← hname]
    exact h.isVariable_copy hvs hd
  exact h.free d hd (hname ▸ he hvariable)

end Copies

section Expanded

variable {a : Application} {seen : List Entity} {taken : List String}

/-- What an application and the variables seen before it must be like for its negation to be
expanded: its arguments have different names, and the names of all variables are taken. -/
structure Expandable (a : Application) (seen : List Entity) (taken : List String) : Prop where
  distinct : ∀ d ∈ a.arguments, ∀ e ∈ a.arguments, d.name = e.name → d = e
  seenTaken : ∀ w ∈ seen, w.name ∈ taken
  argumentsTaken : ∀ v ∈ a.variableArguments, v.name ∈ taken

variable {I : Interpretation Ω V} {s : State Ω V} {ρ : Environment Ω}

theorem anySatisfied_append (fs gs : List Formula) :
    AnySatisfied I s ρ (fs ++ gs) ↔ AnySatisfied I s ρ fs ∨ AnySatisfied I s ρ gs := by
  simp only [anySatisfied_iff, List.mem_append, or_and_right, exists_or]

theorem anySatisfied_guards (binders : List Entity) :
    AnySatisfied I s ρ (binders.flatMap fun v => seen.map fun w => .not (.different w v)) ↔
      ∃ v ∈ binders, ∃ w ∈ seen, ρ v = ρ w := by
  rw [anySatisfied_iff]
  constructor
  · rintro ⟨guard, hguard, h⟩
    obtain ⟨v, hv, hguard⟩ := List.mem_flatMap.1 hguard
    obtain ⟨w, hw, rfl⟩ := List.mem_map.1 hguard
    rw [Satisfied, Satisfied, not_not] at h
    exact ⟨v, hv, w, hw, h.symm⟩
  · rintro ⟨v, hv, w, hw, heq⟩
    refine ⟨_, List.mem_flatMap.2 ⟨v, hv, List.mem_map_of_mem hw⟩, ?_⟩
    rw [Satisfied, Satisfied, not_not]
    exact heq.symm

variable {copies : List (Entity × Entity)} {vs : List Entity} {chosen : Environment Ω}
  {choice : String → Ω} (h : AreCopies copies taken vs) (hvs : ∀ v, v ∈ vs ↔ v ∈ a.unseen seen)
  (ha : Expandable a seen taken) (hmatch : ∀ d ∈ copies, choice d.2.name = chosen d.1)

include h hvs

theorem AreCopies.mem_unseen {v : Entity} : v ∈ a.unseen seen ↔ ∃ d ∈ copies, d.1 = v := by
  rw [← hvs, ← h.originals, List.mem_map]

include ha

theorem AreCopies.rebind_known {e : Entity} (he : e ∈ a.arguments ∨ e ∈ seen) :
    ρ.rebind (copies.map Prod.snd) choice e = ρ e := by
  have hvariables : ∀ v ∈ vs, v.isVariable = true :=
    fun v hv => (Application.mem_unseen.1 ((hvs v).1 hv)).2.1
  refine h.rebind_other hvariables fun hvariable => ?_
  rcases he with hargument | hseen
  · exact ha.argumentsTaken e (List.mem_filter.2 ⟨hargument, hvariable⟩)
  · exact ha.seenTaken e hseen

include hmatch

theorem AreCopies.map_copied :
    (a.substitute (copying copies)).arguments.map (ρ.rebind (copies.map Prod.snd) choice) =
      a.arguments.map fun e => if e ∈ a.unseen seen then chosen e else ρ e := by
  rw [Application.substitute, List.map_map]
  refine List.map_congr_left fun e he => ?_
  -- bindings look up names, so an argument must not be taken for another one of its name
  have hunique : ∀ d ∈ copies, d.1.name = e.name → d.1 = e := fun d hd hname =>
    ha.distinct d.1 (Application.mem_unseen.1 ((h.mem_unseen hvs).2 ⟨d, hd, rfl⟩)).1 e he hname
  rw [Function.comp_apply]
  rcases apply_copying_cases hunique with ⟨d, hd, rfl, happly⟩ | ⟨hnone, happly⟩
  · rw [happly, rebind_copy hmatch hd, if_pos ((h.mem_unseen hvs).2 ⟨d, hd, rfl⟩)]
  · have hknown : e ∉ a.unseen seen := by
      rw [h.mem_unseen hvs]
      rintro ⟨d, hd, heq⟩
      exact hnone d hd heq
    rw [happly, h.rebind_known hvs ha (Or.inl he), if_neg hknown]

/-- Below the copies, the guards and the negated atom say what they would of the variables. -/
theorem AreCopies.satisfied_copied :
    (Formula.or (((copies.map Prod.snd).flatMap fun v => seen.map fun w =>
        .not (.different w v)) ++ [.not (.atom (a.substitute (copying copies)))])).Satisfied I s
          (ρ.rebind (copies.map Prod.snd) choice) ↔
      (∃ v ∈ a.unseen seen, ∃ w ∈ seen, chosen v = ρ w) ∨
        ¬s.holds a.head (a.arguments.map fun e =>
          if e ∈ a.unseen seen then chosen e else ρ e) := by
  rw [Satisfied, anySatisfied_append, anySatisfied_guards]
  refine or_congr ⟨?_, ?_⟩ ?_
  · rintro ⟨v, hv, w, hw, heq⟩
    obtain ⟨d, hd, rfl⟩ := List.mem_map.1 hv
    rw [rebind_copy hmatch hd, h.rebind_known hvs ha (Or.inr hw)] at heq
    exact ⟨d.1, (h.mem_unseen hvs).2 ⟨d, hd, rfl⟩, w, hw, heq⟩
  · rintro ⟨v, hv, w, hw, heq⟩
    obtain ⟨d, hd, rfl⟩ := (h.mem_unseen hvs).1 hv
    refine ⟨d.2, List.mem_map_of_mem hd, w, hw, ?_⟩
    rw [rebind_copy hmatch hd, h.rebind_known hvs ha (Or.inr hw)]
    exact heq
  · rw [AnySatisfied, AnySatisfied, or_false, Satisfied, Satisfied, h.map_copied hvs ha hmatch]
    rfl

omit ha in
theorem AreCopies.forall_contains_iff :
    (∀ w ∈ copies.map Prod.snd, I.contains w.type (choice w.name)) ↔
      ∀ v ∈ a.unseen seen, I.contains v.type (chosen v) := by
  have hcopy : ∀ d ∈ copies,
      I.contains d.2.type (choice d.2.name) ↔ I.contains d.1.type (chosen d.1) := by
    intro d hd
    rw [h.type d hd, hmatch d hd]
  rw [List.forall_mem_map, forall₂_congr hcopy]
  constructor
  · intro hcontains v hv
    obtain ⟨d, hd, rfl⟩ := (h.mem_unseen hvs).1 hv
    exact hcontains d hd
  · exact fun hcontains d hd => hcontains d.1 ((h.mem_unseen hvs).2 ⟨d, hd, rfl⟩)

omit h hvs hmatch in
/-- An expanded atom says that the atom fails for all objects of its unseen variables, apart from
those of the seen ones. -/
theorem satisfied_expandAtom :
    (expandAtom seen taken a).1.Satisfied I s ρ ↔ a.FailsApart seen I s ρ := by
  obtain ⟨copies, h, hexpanded⟩ := exists_copies_expandAtom seen taken a
  have hvs : ∀ v, v ∈ Sorted.ofList (a.variableArguments.filter (!seen.contains ·)) ↔
      v ∈ a.unseen seen := by
    intro v
    rw [Application.filter_variableArguments, Sorted.mem_ofList]
  have hcopies : ((copies.map Prod.snd).map Entity.name).Nodup := by
    rw [List.map_map]
    exact h.nodup
  have horiginals : (copies.map Prod.fst).Nodup := by
    rw [h.originals]
    exact (Sorted.ascending_ofList _).nodup
  rw [hexpanded, satisfied_forEach hcopies]
  -- what is chosen for the names of the copies and what is chosen for the variables give each other
  constructor
  · intro hchoice chosen hchosen
    obtain ⟨choice, hmatch⟩ := exists_function_of_nodup h.nodup fun d => chosen d.1
    have hcontains := (h.forall_contains_iff hvs hmatch).2 hchosen
    exact (h.satisfied_copied hvs ha hmatch).1 (hchoice choice hcontains)
  · intro hfails choice hcontains
    obtain ⟨chosen, hchosen⟩ := exists_function_of_nodup horiginals fun d => choice d.2.name
    have hmatch : ∀ d ∈ copies, choice d.2.name = chosen d.1 := fun d hd => (hchosen d hd).symm
    exact (h.satisfied_copied hvs ha hmatch).2
      (hfails chosen ((h.forall_contains_iff hvs hmatch).1 hcontains))

end Expanded

end Formula

end Pddl
