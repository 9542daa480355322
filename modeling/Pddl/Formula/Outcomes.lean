import Pddl.Formula.Basic

namespace Pddl.Formula

def totalProbability {α : Type} (outcomes : List (Number × α)) : Number :=
  Number.sum (outcomes.map Prod.fst)

/-- The probability left for no change; it is never negative, and zero when there is no total. -/
def noChange {α : Type} (outcomes : List (Number × α)) : Number :=
  let rest := Number.one.sub (totalProbability outcomes)
  if Number.zero.le rest then rest else .zero

def likeliest {α : Type} (best : Number × α) : List (Number × α) → Number × α
  | [] => best
  | o :: rest => likeliest (if compare o.1 best.1 = .gt then o else best) rest

/-- The most likely outcome, the first of several; none if no change is likelier than each. -/
def mostLikely {α : Type} (outcomes : List (Number × α)) : Option (Number × α) :=
  match outcomes with
  | [] => none
  | o :: rest =>
    let best := likeliest o rest
    if (noChange outcomes).le best.1 then some best else none

theorem likeliest_mem {α : Type} (best : Number × α) (rest : List (Number × α)) :
    likeliest best rest ∈ best :: rest := by
  induction rest generalizing best with
  | nil => simp [likeliest]
  | cons o rest ih =>
    simp only [likeliest]
    rcases List.mem_cons.1 (ih (if compare o.1 best.1 = .gt then o else best)) with h | h
    · rw [h]
      split <;> simp
    · simp [h]

theorem mem_of_mostLikely {α : Type} {outcomes : List (Number × α)} {o : Number × α}
    (h : mostLikely outcomes = some o) : o ∈ outcomes := by
  unfold mostLikely at h
  split at h
  · simp at h
  · dsimp only at h
    split at h
    · simp only [Option.some.injEq] at h
      exact h ▸ likeliest_mem _ _
    · simp at h

end Pddl.Formula
