import Mathlib.Algebra.Group.Nat.Defs
import Pddl.Number.Basic

namespace Pddl.Number

/-- Whether a magnitude has at most fifty-three significant bits. -/
def Representable (units : Nat) : Prop := ∃ m shift, m ≤ 2 ^ 53 ∧ units = m * 2 ^ shift

variable {num den units : Nat}

theorem roundDiv_mul_mul {t : Nat} (ht : 0 < t) (num den : Nat) :
    roundDiv (num * t) (den * t) = roundDiv num den := by
  simp only [roundDiv, Nat.mul_div_mul_right _ _ ht, Nat.mul_mod_mul_right, ← Nat.mul_assoc,
    Nat.mul_lt_mul_right ht, Nat.mul_left_inj (Nat.pos_iff_ne_zero.1 ht)]

theorem div_le_roundDiv (num den : Nat) : num / den ≤ roundDiv num den := by
  unfold roundDiv
  dsimp only
  split
  · exact Nat.le_refl _
  · split
    · exact Nat.le_add_right _ _
    · exact Nat.le_succ _

theorem roundDiv_le {bound : Nat} (h : num / den < bound) : roundDiv num den ≤ bound := by
  unfold roundDiv
  dsimp only
  split
  · exact Nat.le_of_lt h
  · split
    · omega
    · exact h

theorem roundDiv_of_lt (h : 2 * num < den) : roundDiv num den = 0 := by
  have hlt : num < den := by omega
  rw [roundDiv, Nat.mod_eq_of_lt hlt, Nat.div_eq_of_lt hlt, if_pos h]

theorem roundDiv_mul_self (hden : 0 < den) (q : Nat) : roundDiv (q * den) den = q := by
  rw [roundDiv, Nat.mul_mod_left, Nat.mul_div_cancel q hden, if_pos (by omega)]

theorem roundUnits_mul_mul {t : Nat} (ht : 0 < t) (num den : Nat) :
    roundUnits (num * t) (den * t) = roundUnits num den := by
  simp only [roundUnits, Nat.mul_div_mul_right _ _ ht, Nat.mul_right_comm den t,
    roundDiv_mul_mul ht]

theorem roundUnits_of_lt (h : 2 * num < den) : roundUnits num den = 0 := by
  have hdiv : num / den = 0 := Nat.div_eq_of_lt (by omega)
  have hround : roundDiv num den = 0 := roundDiv_of_lt h
  simp [roundUnits, hdiv, hround]

theorem div_pow_shift_lt (n : Nat) : n / 2 ^ (n.log2 - 52) < 2 ^ 53 := by
  rw [Nat.div_lt_iff_lt_mul (Nat.two_pow_pos _), ← Nat.pow_add]
  exact Nat.lt_of_lt_of_le Nat.lt_log2_self (Nat.pow_le_pow_right (by omega) (by omega))

theorem representable_roundUnits (num den : Nat) : Representable (roundUnits num den) := by
  refine ⟨_, (num / den).log2 - 52, roundDiv_le ?_, rfl⟩
  rw [Nat.pow_eq, ← Nat.div_div_eq_div_mul]
  exact div_pow_shift_lt (num / den)

theorem Representable.pow_dvd (h : Representable units) : 2 ^ (units.log2 - 52) ∣ units := by
  obtain ⟨m, shift, hm, rfl⟩ := h
  rcases Nat.lt_or_ge m (2 ^ 53) with hlt | hge
  · rcases Nat.eq_zero_or_pos m with rfl | hpos
    · exact ⟨0, by simp⟩
    · have hne : m * 2 ^ shift ≠ 0 := Nat.mul_ne_zero (by omega) (Nat.ne_of_gt (Nat.two_pow_pos _))
      have hlog : (m * 2 ^ shift).log2 < 53 + shift := by
        rw [Nat.log2_lt hne, Nat.pow_add]
        exact Nat.mul_lt_mul_of_pos_right hlt (Nat.two_pow_pos _)
      exact Nat.dvd_trans (Nat.pow_dvd_pow 2 (by omega)) (Nat.dvd_mul_left _ m)
  · obtain rfl : m = 2 ^ 53 := Nat.le_antisymm hm hge
    rw [← Nat.pow_add, Nat.log2_two_pow]
    exact Nat.pow_dvd_pow 2 (by omega)

/-- A number of the format is its own rounding. -/
theorem roundUnits_mul_self (h : Representable units) (hden : 0 < den) :
    roundUnits (units * den) den = units := by
  have hround := roundUnits_mul_mul hden units 1
  rw [Nat.one_mul] at hround
  obtain ⟨q, hq⟩ := h.pow_dvd
  rw [hround, roundUnits, Nat.div_one, Nat.one_mul, Nat.pow_eq]
  generalize units.log2 - 52 = shift at hq ⊢
  rw [hq, Nat.mul_comm (2 ^ shift) q, roundDiv_mul_self (Nat.two_pow_pos _)]

/-- Rounding crosses no power of two downwards. -/
theorem two_pow_le_roundUnits {k : Nat} (h : 2 ^ k ≤ num / den) : 2 ^ k ≤ roundUnits num den := by
  have hne : num / den ≠ 0 := fun hzero => by
    have := Nat.two_pow_pos k
    omega
  have hlog : k ≤ (num / den).log2 := (Nat.le_log2 hne).2 h
  calc 2 ^ k ≤ 2 ^ (num / den).log2 := Nat.pow_le_pow_right (by omega) hlog
    _ = 2 ^ ((num / den).log2 - ((num / den).log2 - 52)) * 2 ^ ((num / den).log2 - 52) := by
      rw [← Nat.pow_add]
      congr 1
      omega
    _ ≤ num / den / 2 ^ ((num / den).log2 - 52) * 2 ^ ((num / den).log2 - 52) := by
      refine Nat.mul_le_mul_right _ ((Nat.le_div_iff_mul_le (Nat.two_pow_pos _)).2 ?_)
      rw [← Nat.pow_add, Nat.sub_add_cancel (Nat.sub_le _ _)]
      exact Nat.log2_self_le hne
    _ ≤ roundUnits num den := by
      rw [Nat.div_div_eq_div_mul]
      exact Nat.mul_le_mul_right _ (div_le_roundDiv num _)

theorem ofUnits_mul_mul {t : Nat} (ht : 0 < t) (negative : Bool) (num den : Nat) :
    ofUnits negative (num * t) (den * t) = ofUnits negative num den := by
  simp only [ofUnits, roundUnits_mul_mul ht]

theorem ofUnits_of_lt (negative : Bool) (h : 2 * num < den) :
    ofUnits negative num den = .finite negative 0 := by
  have hlimit : 0 < unitsLimit := by decide +kernel
  simp only [ofUnits, roundUnits_of_lt h, if_pos hlimit]

theorem ofUnits_of_limit_le (negative : Bool) (h : unitsLimit ≤ num / den) :
    ofUnits negative num den = .infinite negative := by
  have hpow : unitsLimit = 2 ^ 2098 := by decide +kernel
  have hle : unitsLimit ≤ roundUnits num den := by
    rw [hpow] at h ⊢
    exact two_pow_le_roundUnits (k := 2098) h
  simp only [ofUnits, if_neg (Nat.not_lt.2 hle)]

theorem ofUnits_mul_self (negative : Bool) (h : Representable units) (hlimit : units < unitsLimit)
    (hden : 0 < den) : ofUnits negative (units * den) den = .finite negative units := by
  simp only [ofUnits, roundUnits_mul_self h hden, if_pos hlimit]

theorem ofUnits_eq_finite {negative s : Bool} :
    ofUnits negative num den = .finite s units ↔
      negative = s ∧ roundUnits num den = units ∧ units < unitsLimit := by
  unfold ofUnits
  dsimp only
  split
  · rename_i hlt
    simp only [Number.finite.injEq, and_congr_right_iff]
    rintro -
    exact ⟨fun h => ⟨h, h ▸ hlt⟩, And.left⟩
  · rename_i hge
    simp only [reduceCtorEq, false_iff, not_and]
    rintro - rfl
    exact hge

end Pddl.Number
