import Mathlib.Data.List.Perm.Basic
import Pddl.Proofs.Domain.Shape

namespace Pddl

open Text

theorem eq_of_perm_of_length_le_one {α : Type} {xs ys : List α} (h : xs.Perm ys)
    (hlen : xs.length ≤ 1) : xs = ys := by
  rcases Nat.le_one_iff_eq_zero_or_eq_one.1 hlen with hzero | hone
  · obtain rfl := List.eq_nil_of_length_eq_zero hzero
    exact h.nil_eq
  · obtain ⟨x, rfl⟩ := List.length_eq_one_iff.1 hone
    exact (List.perm_singleton.1 h.symm).symm

namespace Shape

/-- The same sections in another order. Those of a kind that does not add up occur at most once;
operators and requirements keep their order. -/
structure Reordered (ss rs : List Shape) : Prop where
  perm : ss.Perm rs
  once : ∀ keyword ∈ ["domain", ":types", ":constants", ":predicates", ":functions", ":actions"],
    (bodies keyword ss).length ≤ 1
  requirements : bodies ":requirements" ss = bodies ":requirements" rs
  operators : ss.filter isOperator = rs.filter isOperator

variable {ss rs : List Shape}

theorem Reordered.symm (h : Reordered ss rs) : Reordered rs ss where
  perm := h.perm.symm
  once keyword hkeyword := by
    have hlen := (h.perm.filterMap (body? keyword)).length_eq
    exact hlen ▸ h.once keyword hkeyword
  requirements := h.requirements.symm
  operators := h.operators.symm

theorem Reordered.sameSections (h : Reordered ss rs) : SameSections ss rs where
  storable hss r hr := hss r (h.perm.mem_iff.2 hr)
  last keyword hkeyword := by
    have hbodies : (bodies keyword ss).Perm (bodies keyword rs) := h.perm.filterMap _
    rw [eq_of_perm_of_length_le_one hbodies (h.once keyword hkeyword)]
  requirements := h.requirements
  operators := h.operators

end Shape

namespace Domain

/-- A domain may be written with its sections in any order. -/
theorem read_of_reordered {s t : String} {ss rs : List Shape}
    (hs : tokenTree s = .ok (.list (.word "define" :: ss)))
    (ht : tokenTree t = .ok (.list (.word "define" :: rs))) (h : Shape.Reordered ss rs)
    (config : Config) (d : Domain) :
    (Domain.read config s).result = .ok d ↔ (Domain.read config t).result = .ok d :=
  ⟨read_of_sameSections hs ht h.sameSections, read_of_sameSections ht hs h.symm.sameSections⟩

def declaredFirst : String := "(define (domain d) (:predicates (p)) (:action a :effect (p)))"

def usedFirst : String := "(define (:action a :effect (p)) (:predicates (p)) (domain d))"

def declaredFirstSections : List Shape :=
  [.list [.word "domain", .word "d"], .list [.word ":predicates", .list [.word "p"]],
    .list [.word ":action", .word "a", .word ":effect", .list [.word "p"]]]

theorem read_of_reordered_usedFirst :
    tokenTree declaredFirst = .ok (.list (.word "define" :: declaredFirstSections)) ∧
      tokenTree usedFirst = .ok (.list (.word "define" :: declaredFirstSections.reverse)) ∧
      Shape.Reordered declaredFirstSections declaredFirstSections.reverse ∧
      ∃ d, (Domain.read .default declaredFirst).result = .ok d ∧
        d.operators.map Operator.name = ["a"] ∧
        (Domain.read .default usedFirst).result = .ok d := by
  have hfirst : tokenTree declaredFirst =
      .ok (.list (.word "define" :: declaredFirstSections)) := by
    decide +kernel
  have hused : tokenTree usedFirst =
      .ok (.list (.word "define" :: declaredFirstSections.reverse)) := by
    decide +kernel
  have hreordered : Shape.Reordered declaredFirstSections declaredFirstSections.reverse :=
    ⟨by decide +kernel, by decide +kernel, by decide +kernel, by decide +kernel⟩
  obtain ⟨d, hd, hname⟩ : ∃ d, (Domain.read .default declaredFirst).result = .ok d ∧
      d.operators.map Operator.name = ["a"] := by
    decide +kernel
  exact ⟨hfirst, hused, hreordered, d, hd, hname,
    (read_of_reordered hfirst hused hreordered _ d).1 hd⟩

end Domain

end Pddl
