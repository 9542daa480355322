import Pddl.Entity

namespace Pddl

namespace Bindings

variable {b : Bindings} {vs ws : List Entity} {e : Entity}

@[simp] theorem without_nil (b : Bindings) : b.without [] = b := by
  simp [without]

theorem without_without (b : Bindings) (vs ws : List Entity) :
    (b.without vs).without ws = b.without (ws ++ vs) := by
  simp only [without, List.filter_filter, List.any_append, Bool.not_or]

theorem find?_cons (key : String) (value : Entity) (b : Bindings) (name : String) :
    find? ((key, value) :: b) name = if name = key then some value else b.find? name := by
  rw [find?, List.lookup_cons]
  by_cases h : name = key
  · simp [h]
  · simp [find?, h, beq_eq_false_iff_ne.2 h]

theorem mem_of_find? {name : String} {x : Entity} (h : b.find? name = some x) : (name, x) ∈ b := by
  obtain ⟨l, r, rfl, -⟩ := List.lookup_eq_some_iff.1 h
  exact List.mem_append_right l List.mem_cons_self

theorem find?_without_of_bound {name : String} (h : ∃ v ∈ vs, v.name = name) :
    (b.without vs).find? name = none := by
  rw [find?, List.lookup_eq_none_iff]
  intro p hp
  obtain ⟨v, hv, rfl⟩ := h
  have hother : ∀ w ∈ vs, w.name ≠ p.1 := by simpa [without] using (List.mem_filter.1 hp).2
  simpa using hother v hv

theorem find?_without_of_free {name : String} (h : ∀ v ∈ vs, v.name ≠ name) :
    (b.without vs).find? name = b.find? name := by
  induction b with
  | nil => rfl
  | cons p b ih =>
    obtain ⟨key, value⟩ := p
    rw [find?_cons, ← ih, without, List.filter_cons]
    by_cases hname : name = key
    · -- the entry for the name itself stays
      subst hname
      have hkeep : vs.any (·.name = name) = false := by simpa using h
      simp [hkeep, find?_cons]
    · by_cases hbound : vs.any (·.name = key) = true
      · simp [hbound, hname, without]
      · simp [hbound, hname, find?_cons, without]

theorem find?_of_without {name : String} {x : Entity} (h : (b.without vs).find? name = some x) :
    b.find? name = some x := by
  by_cases hbound : ∃ v ∈ vs, v.name = name
  · rw [find?_without_of_bound hbound] at h
    simp at h
  · have hfree : ∀ v ∈ vs, v.name ≠ name := by simpa using hbound
    rwa [find?_without_of_free hfree] at h

theorem apply_without_of_bound (h : ∃ v ∈ vs, v.name = e.name) : (b.without vs).apply e = e := by
  rw [apply, find?_without_of_bound h, Option.getD_none]

theorem apply_without_of_free (h : ∀ v ∈ vs, v.name ≠ e.name) :
    (b.without vs).apply e = b.apply e := by
  rw [apply, find?_without_of_free h, apply]

/-- Whether no value is a variable. -/
def IsGround (b : Bindings) : Prop := ∀ name x, b.find? name = some x → x.isVariable = false

variable {parameters objects : List Entity}

theorem ofParameters_cons (p x : Entity) (parameters objects : List Entity) :
    ofParameters (p :: parameters) (x :: objects) =
      (p.name, x) :: ofParameters parameters objects := rfl

theorem find?_ofParameters_of_ne {name : String} (h : ∀ p ∈ parameters, p.name ≠ name) :
    (ofParameters parameters objects).find? name = none := by
  rw [find?, List.lookup_eq_none_iff]
  rintro ⟨key, x⟩ hp
  obtain ⟨q, hq, rfl⟩ := List.mem_map.1 (List.of_mem_zip hp).1
  simpa using (h q hq).symm

theorem find?_ofParameters (hnodup : (parameters.map Entity.name).Nodup) {p x : Entity}
    (h : (p, x) ∈ parameters.zip objects) :
    (ofParameters parameters objects).find? p.name = some x := by
  induction parameters generalizing objects with
  | nil => simp at h
  | cons q parameters ih =>
    rcases objects with _ | ⟨y, objects⟩
    · simp at h
    · rw [List.map_cons, List.nodup_cons] at hnodup
      rw [ofParameters_cons, find?_cons]
      rw [List.zip_cons_cons, List.mem_cons, Prod.mk.injEq] at h
      rcases h with ⟨rfl, rfl⟩ | h
      · exact if_pos rfl
      · have hname : p.name ≠ q.name := by
          rintro heq
          exact hnodup.1 (heq ▸ List.mem_map_of_mem (List.of_mem_zip h).1)
        rw [if_neg hname]
        exact ih hnodup.2 h

theorem isGround_ofParameters (h : ∀ x ∈ objects, x.isVariable = false) :
    (ofParameters parameters objects).IsGround :=
  fun _ x hx => h x (List.of_mem_zip (mem_of_find? hx)).2

end Bindings

end Pddl
