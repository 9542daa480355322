import Pddl.Number.Basic

namespace Pddl.Number

theorem zero_le_finite {negative : Bool} {units : Nat} :
    zero.le (.finite negative units) = true ↔ negative = false ∨ units = 0 := by
  cases negative <;> simp [le, zero, Number.compare, rank, Std.compare_eq_gt]

theorem zero_le_infinite {negative : Bool} :
    zero.le (.infinite negative) = true ↔ negative = false := by
  cases negative <;> simp [le, zero, Number.compare, rank, Std.compare_eq_gt]

theorem zero_le_ofUnits (num den : Nat) : zero.le (ofUnits false num den) = true := by
  unfold ofUnits
  simp only
  split
  · exact zero_le_finite.2 (Or.inl rfl)
  · exact zero_le_infinite.2 rfl

theorem zero_le_ofUnits_zero (negative : Bool) : zero.le (ofUnits negative 0 1) = true := by
  have hunits : roundUnits 0 1 = 0 := by simp [roundUnits, roundDiv]
  have hlimit : 0 < unitsLimit := by decide +kernel
  simp only [ofUnits, hunits, if_pos hlimit]
  exact zero_le_finite.2 (Or.inr rfl)

/-- Numbers that are not negative have a sum, which is not negative either. -/
theorem zero_le_add {a b : Number} (ha : zero.le a = true) (hb : zero.le b = true) :
    zero.le (a.add b) = true := by
  cases a with
  | nan => simp [le] at ha
  | infinite s =>
    cases b with
    | nan => simp [le] at hb
    | infinite t =>
      obtain rfl := zero_le_infinite.1 ha
      obtain rfl := zero_le_infinite.1 hb
      exact ha
    | finite t n => exact ha
  | finite s m =>
    cases b with
    | nan => simp [le] at hb
    | infinite t => exact hb
    | finite t n =>
      have hzero : zero.le zero = true := zero_le_finite.2 (Or.inl rfl)
      simp only [add]
      -- each of the two has no minus or is a zero, which may have one
      rcases zero_le_finite.1 ha with rfl | rfl <;> rcases zero_le_finite.1 hb with rfl | rfl
      · rw [if_pos rfl]
        exact zero_le_ofUnits _ _
      · split
        · exact zero_le_ofUnits _ _
        · split
          · exact hzero
          · rw [if_pos (by omega)]
            exact zero_le_ofUnits _ _
      · split
        · next h => exact h ▸ zero_le_ofUnits _ _
        · split
          · exact hzero
          · rw [if_neg (by omega)]
            exact zero_le_ofUnits _ _
      · split
        · exact zero_le_ofUnits_zero _
        · rw [if_pos rfl]
          exact hzero

theorem zero_le_sum {ns : List Number} (h : ∀ n ∈ ns, zero.le n = true) :
    zero.le (sum ns) = true := by
  suffices hfold : ∀ start, zero.le start = true → zero.le (ns.foldl add start) = true from
    hfold zero (zero_le_finite.2 (Or.inl rfl))
  induction ns with
  | nil => exact fun start hstart => hstart
  | cons n ns ih =>
    rw [List.forall_mem_cons] at h
    exact fun start hstart => ih h.2 (start.add n) (zero_le_add hstart h.1)

end Pddl.Number
