import Mathlib.Algebra.Order.Group.Int
import Mathlib.Data.Prod.Lex
import Pddl.Number.Basic

namespace Pddl.Number

variable {a b : Number}

/-- Where the number stands among all numbers; both zeros stand together. -/
def place (n : Number) : ℕ ×ₗ ℤ := toLex n.rank

theorem compare_eq (a b : Number) : Number.compare a b = compare a.place b.place := rfl

theorem compare_eq_gt_iff : compare a b = .gt ↔ b.place < a.place :=
  (compare_gt_iff_gt : compare a.place b.place = .gt ↔ _)

theorem le_iff : a.le b = true ↔ a ≠ .nan ∧ b ≠ .nan ∧ a.place ≤ b.place := by
  simp only [le, compare_eq, Bool.and_eq_true, decide_eq_true_eq, compare_le_iff_le, and_assoc]

theorem lt_iff : a.lt b = true ↔ a ≠ .nan ∧ b ≠ .nan ∧ a.place < b.place := by
  simp only [lt, compare_eq, Bool.and_eq_true, decide_eq_true_eq, compare_lt_iff_lt, and_assoc]

theorem ne_nan_of_le (h : a.le b = true) : b ≠ .nan := (le_iff.1 h).2.1

theorem lt_eq_false_iff (ha : a ≠ .nan) (hb : b ≠ .nan) : a.lt b = false ↔ b.le a = true := by
  rw [← Bool.not_eq_true, lt_iff, le_iff]
  simp [ha, hb]

end Pddl.Number
