import Pddl.Proofs.Formula.Satisfaction

namespace Pddl

universe u v

variable {Ω : Type u} {V : Type v}

/-- The environment where each entity stands for the object of its name. -/
def Environment.named (η : String → Ω) : Environment Ω := fun e => η e.name

/-- The objects of names when each name with a value takes the object of the value's name. -/
def Bindings.reassign (b : Bindings) (η : String → Ω) : String → Ω :=
  fun name => match b.find? name with
    | some x => η x.name
    | none => η name

variable {b : Bindings} {vs : List Entity} (η choice : String → Ω)

theorem Environment.named_apply (e : Entity) : named η (b.apply e) = named (b.reassign η) e := by
  unfold named Bindings.apply Bindings.reassign
  cases b.find? e.name <;> rfl

theorem Environment.rebind_named_apply
    (hvs : ∀ name x, b.find? name = some x → ∀ v ∈ vs, v.name ≠ x.name) (e : Entity) :
    (named η).rebind vs choice ((b.without vs).apply e) =
      (named (b.reassign η)).rebind vs choice e := by
  by_cases hbound : ∃ v ∈ vs, v.name = e.name
  · rw [Bindings.apply_without_of_bound hbound, rebind_of_bound hbound, rebind_of_bound hbound]
  · have hfree : ∀ v ∈ vs, v.name ≠ e.name := by simpa using hbound
    have hvalue : ∀ v ∈ vs, v.name ≠ (b.apply e).name := by
      unfold Bindings.apply
      cases h : b.find? e.name with
      | none => exact hfree
      | some x => exact hvs e.name x h
    rw [Bindings.apply_without_of_free hfree, rebind_of_free hvalue, rebind_of_free hfree,
      named_apply]

namespace Formula

variable {f : Formula} (I : Interpretation Ω V) (s : State Ω V)

theorem satisfied_substitute_rebind (hf : ∀ name x, b.find? name = some x → ¬f.Binds x.name)
    (hvs : ∀ name x, b.find? name = some x → ∀ v ∈ vs, v.name ≠ x.name) :
    (f.substitute (b.without vs)).Satisfied I s ((Environment.named η).rebind vs choice) ↔
      f.Satisfied I s ((Environment.named (b.reassign η)).rebind vs choice) := by
  apply satisfied_substitute
  · exact not_captures fun name x hx => hf name x (Bindings.find?_of_without hx)
  · intro n _ e _ _
    exact (Environment.rebind_named_apply η choice hvs e).symm

/-- Where no quantifier binds the name of a value, substituting changes the meaning as giving other
objects to the names does. What a quantifier binds keeps its meaning: below variables `vs`, whatever
is chosen for them, the same holds of the bindings without `vs`. -/
theorem satisfied_substitute_named (hf : ∀ name x, b.find? name = some x → ¬f.Binds x.name) :
    ((f.substitute b).Satisfied I s (.named η) ↔ f.Satisfied I s (.named (b.reassign η))) ∧
      ∀ vs, (∀ name x, b.find? name = some x → ∀ v ∈ vs, v.name ≠ x.name) →
        ∀ choice : String → Ω,
          (f.substitute (b.without vs)).Satisfied I s ((Environment.named η).rebind vs choice) ↔
            f.Satisfied I s ((Environment.named (b.reassign η)).rebind vs choice) := by
  constructor
  · have hvs : ∀ name x, b.find? name = some x → ∀ v ∈ ([] : List Entity), v.name ≠ x.name := by
      simp
    simpa using satisfied_substitute_rebind η η I s hf hvs
  · exact fun vs hvs choice => satisfied_substitute_rebind η choice I s hf hvs

def shadowing : Formula :=
  .forAll [⟨"?y", "t"⟩] (.imply (.atom ⟨"p", [⟨"?x", "t"⟩, ⟨"?y", "t"⟩]⟩)
    (.thereIs [⟨"?x", "t"⟩] (.different ⟨"?x", "t"⟩ ⟨"?y", "t"⟩)))

theorem satisfied_substitute_named_shadowing :
    (∀ name x, Bindings.find? [("?x", ⟨"a", "t"⟩)] name = some x → ¬shadowing.Binds x.name) ∧
      ∀ (I : Interpretation Nat Number) (s : State Nat Number) (η : String → Nat),
        (shadowing.substitute [("?x", ⟨"a", "t"⟩)]).Satisfied I s (.named η) ↔
          shadowing.Satisfied I s (.named (Bindings.reassign [("?x", ⟨"a", "t"⟩)] η)) := by
  have hf : ∀ name x, Bindings.find? [("?x", ⟨"a", "t"⟩)] name = some x →
      ¬shadowing.Binds x.name := by
    intro name x hx
    obtain ⟨-, rfl⟩ := Prod.mk.inj (List.mem_singleton.1 (Bindings.mem_of_find? hx))
    decide
  exact ⟨hf, fun I s η => (satisfied_substitute_named η I s hf).1⟩

end Formula

end Pddl
