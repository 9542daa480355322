import Pddl.Proofs.Formula.Substitution

namespace Pddl

universe u v

/-- What entities stand for. -/
abbrev Environment (Ω : Type u) := Entity → Ω

/-- What holds at one time: which atoms are true, and the values of function terms. -/
structure State (Ω : Type u) (V : Type v) where
  holds : String → List Ω → Prop
  value : String → List Ω → V

/-- What does not change over time: the members of types, arithmetic, and the states that a time
qualifier is about. -/
structure Interpretation (Ω : Type u) (V : Type v) where
  contains : String → Ω → Prop
  number : Number → V
  compute : Arithmetic → V → V → V
  relate : Relation → V → V → Prop
  during : Time → State Ω V → Prop

variable {Ω : Type u} {V : Type v}

namespace Environment

/-- The environment below a quantifier: each of its variables stands for the object chosen for its
name. -/
def rebind (ρ : Environment Ω) (vs : List Entity) (choice : String → Ω) : Environment Ω :=
  fun e => if vs.any (·.name = e.name) then choice e.name else ρ e

variable {ρ : Environment Ω} {vs : List Entity} {choice : String → Ω} {e : Entity}

@[simp] theorem rebind_nil (ρ : Environment Ω) (choice : String → Ω) : ρ.rebind [] choice = ρ :=
  rfl

theorem rebind_of_bound (h : ∃ v ∈ vs, v.name = e.name) : ρ.rebind vs choice e = choice e.name :=
  if_pos (by simpa using h)

theorem rebind_of_free (h : ∀ v ∈ vs, v.name ≠ e.name) : ρ.rebind vs choice e = ρ e :=
  if_neg (by simpa using h)

end Environment

def Numeric.evaluate (I : Interpretation Ω V) (s : State Ω V) (ρ : Environment Ω) : Numeric → V
  | .number n => I.number n
  | .function t => s.value t.head (t.arguments.map ρ)
  | .binary o l r => I.compute o (l.evaluate I s ρ) (r.evaluate I s ρ)

namespace Formula

mutual

/-- Whether a condition is satisfied in a state. Effects are not conditions and never are. -/
def Satisfied (I : Interpretation Ω V) (s : State Ω V) (ρ : Environment Ω) : Formula → Prop
  | .atom a => s.holds a.head (a.arguments.map ρ)
  | .not f => ¬f.Satisfied I s ρ
  | .and fs => AllSatisfied I s ρ fs
  | .or fs => AnySatisfied I s ρ fs
  | .imply l r => l.Satisfied I s ρ → r.Satisfied I s ρ
  | .forAll vs f => ∀ choice : String → Ω, (∀ v ∈ vs, I.contains v.type (choice v.name)) →
      f.Satisfied I s (ρ.rebind vs choice)
  | .thereIs vs f => ∃ choice : String → Ω, (∀ v ∈ vs, I.contains v.type (choice v.name)) ∧
      f.Satisfied I s (ρ.rebind vs choice)
  | .comparison r t x => I.relate r (s.value t.head (t.arguments.map ρ)) (x.evaluate I s ρ)
  | .equal a b => ρ a = ρ b
  | .different a b => ρ a ≠ ρ b
  | .timed t f => ∀ u, I.during t u → f.Satisfied I u ρ
  | .delete _ => False
  | .when _ _ => False
  | .assign _ _ _ => False
  | .probabilistic _ => False

def AllSatisfied (I : Interpretation Ω V) (s : State Ω V) (ρ : Environment Ω) :
    List Formula → Prop
  | [] => True
  | f :: fs => f.Satisfied I s ρ ∧ AllSatisfied I s ρ fs

def AnySatisfied (I : Interpretation Ω V) (s : State Ω V) (ρ : Environment Ω) :
    List Formula → Prop
  | [] => False
  | f :: fs => f.Satisfied I s ρ ∨ AnySatisfied I s ρ fs

end

variable {I : Interpretation Ω V} {s : State Ω V} {ρ : Environment Ω}

theorem allSatisfied_iff {fs : List Formula} :
    AllSatisfied I s ρ fs ↔ ∀ f ∈ fs, f.Satisfied I s ρ := by
  induction fs with
  | nil => simp [AllSatisfied]
  | cons f fs ih => rw [AllSatisfied, ih, List.forall_mem_cons]

theorem anySatisfied_iff {fs : List Formula} :
    AnySatisfied I s ρ fs ↔ ∃ f ∈ fs, f.Satisfied I s ρ := by
  induction fs with
  | nil => simp [AnySatisfied]
  | cons f fs ih => simp only [AnySatisfied, ih, List.mem_cons, exists_eq_or_imp]

end Formula

/-- Whether a quantifier around the node binds the name of what takes the place of an argument that
it did not bind before. -/
def Node.Captures (n : Node) (b : Bindings) : Prop :=
  ∃ e ∈ n.arguments, (∀ v ∈ n.enclosing, v.name ≠ e.name) ∧
    ∃ v ∈ n.enclosing, v.name = (b.apply e).name

def Formula.Captures (f : Formula) (b : Bindings) : Prop := ∃ n ∈ f.nodes [], n.Captures b

instance {n : Node} {b : Bindings} : Decidable (n.Captures b) :=
  inferInstanceAs (Decidable (∃ e ∈ n.arguments, _ ∧ _))

instance {f : Formula} {b : Bindings} : Decidable (f.Captures b) :=
  inferInstanceAs (Decidable (∃ n ∈ f.nodes [], _))

/-- Whether a quantifier of the formula binds the name. -/
def Formula.Binds (f : Formula) (name : String) : Prop :=
  ∃ n ∈ f.nodes [], ∃ v ∈ n.binders, v.name = name

instance {f : Formula} {name : String} : Decidable (f.Binds name) :=
  inferInstanceAs (Decidable (∃ n ∈ f.nodes [], ∃ v ∈ n.binders, _))

theorem Formula.not_captures {f : Formula} {b : Bindings}
    (h : ∀ name x, b.find? name = some x → ¬f.Binds x.name) : ¬f.Captures b := by
  rintro ⟨n, hn, e, -, hfree, v, hv, hname⟩
  obtain ⟨m, hm, hbinder⟩ := (Formula.mem_enclosing hn hv).resolve_left List.not_mem_nil
  cases hvalue : b.find? e.name with
  | none =>
    rw [Bindings.apply, hvalue, Option.getD_none] at hname
    exact hfree v hv hname
  | some x =>
    rw [Bindings.apply, hvalue, Option.getD_some] at hname
    exact h e.name x hvalue ⟨m, hm, v, hbinder, hname⟩

/-- The environments below the same choices for the variables `enclosing`, where they are `ρ₀` and
`σ₀` outside. -/
structure Environment.Follow (ρ₀ σ₀ ρ σ : Environment Ω) (enclosing : List Entity) : Prop where
  bound : ∀ e, (∃ v ∈ enclosing, v.name = e.name) → ρ e = σ e
  left : ∀ e, (∀ v ∈ enclosing, v.name ≠ e.name) → ρ e = ρ₀ e
  right : ∀ e, (∀ v ∈ enclosing, v.name ≠ e.name) → σ e = σ₀ e

section Follow

variable {ρ₀ σ₀ ρ σ : Environment Ω} {enclosing : List Entity} {b : Bindings}

theorem Environment.Follow.refl (ρ₀ σ₀ : Environment Ω) : Follow ρ₀ σ₀ ρ₀ σ₀ [] :=
  ⟨by simp, fun _ _ => rfl, fun _ _ => rfl⟩

theorem Environment.Follow.rebind (h : Follow ρ₀ σ₀ ρ σ enclosing) (vs : List Entity)
    (choice : String → Ω) :
    Follow ρ₀ σ₀ (ρ.rebind vs choice) (σ.rebind vs choice) (vs ++ enclosing) := by
  refine ⟨fun e he => ?_, fun e he => ?_, fun e he => ?_⟩
  · by_cases hvs : ∃ v ∈ vs, v.name = e.name
    · rw [rebind_of_bound hvs, rebind_of_bound hvs]
    · have hfree : ∀ v ∈ vs, v.name ≠ e.name := by simpa using hvs
      rw [rebind_of_free hfree, rebind_of_free hfree]
      obtain ⟨v, hv, hname⟩ := he
      exact h.bound e ⟨v, (List.mem_append.1 hv).resolve_left fun hmem => hfree v hmem hname, hname⟩
  · rw [List.forall_mem_append] at he
    rw [rebind_of_free he.1]
    exact h.left e he.2
  · rw [List.forall_mem_append] at he
    rw [rebind_of_free he.1]
    exact h.right e he.2

structure Node.Respects (n : Node) (b : Bindings) (ρ₀ σ₀ : Environment Ω) : Prop where
  captures : ¬n.Captures b
  values : ∀ e ∈ n.arguments, (∀ v ∈ n.enclosing, v.name ≠ e.name) → ρ₀ e = σ₀ (b.apply e)

theorem Node.Respects.apply {n : Node} (h : n.Respects b ρ₀ σ₀)
    (hfollow : Environment.Follow ρ₀ σ₀ ρ σ n.enclosing) :
    ∀ e ∈ n.arguments, σ ((b.without n.enclosing).apply e) = ρ e := by
  intro e he
  by_cases hbound : ∃ v ∈ n.enclosing, v.name = e.name
  · rw [Bindings.apply_without_of_bound hbound, hfollow.bound e hbound]
  · have hfree : ∀ v ∈ n.enclosing, v.name ≠ e.name := by simpa using hbound
    have hvalue : ∀ v ∈ n.enclosing, v.name ≠ (b.apply e).name :=
      fun v hv hname => h.captures ⟨e, he, hfree, v, hv, hname⟩
    calc σ ((b.without n.enclosing).apply e) = σ (b.apply e) := by
          rw [Bindings.apply_without_of_free hfree]
      _ = σ₀ (b.apply e) := hfollow.right _ hvalue
      _ = ρ₀ e := (h.values e he hfree).symm
      _ = ρ e := (hfollow.left e hfree).symm

theorem Node.Respects.apply_of_mem {n : Node} (h : n.Respects b ρ₀ σ₀)
    (hfollow : Environment.Follow ρ₀ σ₀ ρ σ n.enclosing) {a : Application}
    (ha : a ∈ n.atoms ++ n.terms) :
    ∀ e ∈ a.arguments, σ ((b.without n.enclosing).apply e) = ρ e :=
  fun e he => h.apply hfollow e (Node.mem_arguments_of_mem ha he)

theorem Application.map_substitute {a : Application}
    (h : ∀ e ∈ a.arguments, σ (b.apply e) = ρ e) :
    (a.substitute b).arguments.map σ = a.arguments.map ρ := by
  rw [substitute, List.map_map]
  exact List.map_congr_left h

variable {I : Interpretation Ω V} {s : State Ω V}

theorem Numeric.evaluate_substitute {x : Numeric}
    (h : ∀ t ∈ x.terms, ∀ e ∈ t.arguments, σ (b.apply e) = ρ e) :
    (x.substitute b).evaluate I s σ = x.evaluate I s ρ := by
  induction x with
  | number n => rfl
  | function t =>
    have harguments := h t (List.mem_singleton_self t)
    rw [substitute, evaluate, evaluate, Application.map_substitute harguments]
    rfl
  | binary o l r ihl ihr =>
    rw [terms, List.forall_mem_append] at h
    rw [substitute, evaluate, evaluate, ihl h.1, ihr h.2]

end Follow

namespace Formula

variable {I : Interpretation Ω V} {b : Bindings} {ρ₀ σ₀ : Environment Ω}

theorem satisfied_substitute_below (f : Formula) {s : State Ω V} {ρ σ : Environment Ω}
    {enclosing : List Entity} (hfollow : Environment.Follow ρ₀ σ₀ ρ σ enclosing)
    (h : ∀ n ∈ f.nodes enclosing, n.Respects b ρ₀ σ₀) :
    (f.substitute (b.without enclosing)).Satisfied I s σ ↔ f.Satisfied I s ρ := by
  induction f using Formula.induct generalizing s ρ σ enclosing with
  | delete | assign | probabilistic | when => simp [substitute, Satisfied]
  | atom a =>
    rw [nodes, List.forall_mem_singleton] at h
    have harguments := h.apply_of_mem hfollow (a := a) (by simp [Node.atoms])
    rw [substitute, Satisfied, Satisfied, Application.map_substitute harguments]
    rfl
  | comparison r t x =>
    rw [nodes, List.forall_mem_singleton] at h
    have hterm := h.apply_of_mem hfollow (a := t) (by simp [Node.terms])
    have hvalue : ∀ u ∈ x.terms, ∀ e ∈ u.arguments, σ ((b.without enclosing).apply e) = ρ e :=
      fun u hu => h.apply_of_mem hfollow (by simp [Node.terms, hu])
    rw [substitute, Satisfied, Satisfied, Application.map_substitute hterm,
      Numeric.evaluate_substitute hvalue]
    rfl
  | equal x y | different x y =>
    rw [nodes, List.forall_mem_singleton] at h
    have harguments := h.apply hfollow
    simp only [Node.arguments, List.forall_mem_cons] at harguments
    rw [substitute, Satisfied, Satisfied, harguments.1, harguments.2.1]
  | not f ih =>
    rw [nodes, List.forall_mem_cons] at h
    rw [substitute, Satisfied, Satisfied, ih hfollow h.2]
  | timed t f ih =>
    rw [nodes, List.forall_mem_cons] at h
    rw [substitute, Satisfied, Satisfied]
    exact forall₂_congr fun u _ => ih hfollow h.2
  | imply l r ihl ihr =>
    rw [nodes, List.forall_mem_cons, List.forall_mem_append] at h
    rw [substitute, Satisfied, Satisfied, ihl hfollow h.2.1, ihr hfollow h.2.2]
  | forAll vs f ih =>
    rw [nodes, List.forall_mem_cons] at h
    rw [substitute, Satisfied, Satisfied, Bindings.without_without]
    -- the same choice is made on both sides
    exact forall₂_congr fun choice _ => ih (hfollow.rebind vs choice) h.2
  | thereIs vs f ih =>
    rw [nodes, List.forall_mem_cons] at h
    rw [substitute, Satisfied, Satisfied, Bindings.without_without]
    exact exists_congr fun choice => and_congr_right fun _ => ih (hfollow.rebind vs choice) h.2
  | and fs ih =>
    rw [nodes, nodesAll_eq_flatMap, List.forall_mem_cons, List.forall_mem_flatMap] at h
    rw [substitute, Satisfied, Satisfied, substituteAll_eq_map, allSatisfied_iff, allSatisfied_iff,
      List.forall_mem_map]
    exact forall₂_congr fun f hf => ih f hf hfollow (h.2 f hf)
  | or fs ih =>
    rw [nodes, nodesAll_eq_flatMap, List.forall_mem_cons, List.forall_mem_flatMap] at h
    rw [substitute, Satisfied, Satisfied, substituteAll_eq_map, anySatisfied_iff, anySatisfied_iff]
    simp only [List.mem_map, exists_exists_and_eq_and]
    exact exists_congr fun f => and_congr_right fun hf => ih f hf hfollow (h.2 f hf)

/-- Substituting changes the meaning as the environment would, where nothing is captured: each free
argument stands for what its value stands for. -/
theorem satisfied_substitute {f : Formula} {s : State Ω V} (hcaptures : ¬f.Captures b)
    (hvalues : ∀ n ∈ f.nodes [], ∀ e ∈ n.arguments, (∀ v ∈ n.enclosing, v.name ≠ e.name) →
      ρ₀ e = σ₀ (b.apply e)) :
    (f.substitute b).Satisfied I s σ₀ ↔ f.Satisfied I s ρ₀ := by
  have hrespects : ∀ n ∈ f.nodes [], n.Respects b ρ₀ σ₀ :=
    fun n hn => ⟨fun hcapture => hcaptures ⟨n, hn, hcapture⟩, hvalues n hn⟩
  have hbelow := f.satisfied_substitute_below (I := I) (s := s) (.refl ρ₀ σ₀) hrespects
  rwa [Bindings.without_nil] at hbelow

end Formula

end Pddl
