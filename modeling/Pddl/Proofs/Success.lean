import Mathlib.Data.List.Forall2
import Pddl.Report

namespace Pddl

variable {ε α β : Type}

theorem bind_eq_ok {x : Except ε α} {f : α → Except ε β} {b : β} :
    x >>= f = .ok b ↔ ∃ a, x = .ok a ∧ f a = .ok b := by
  cases x <;> simp [bind, Except.bind]

theorem pure_eq_ok {a b : α} : (pure a : Except ε α) = .ok b ↔ a = b := by
  simp [pure, Except.pure]

theorem bind_pure_eq_error {x : Except ε α} {f : α → β} {e : ε} :
    (x >>= fun a => pure (f a)) = .error e ↔ x = .error e := by
  cases x <;> simp [bind, Except.bind, pure, Except.pure]

theorem ok_bind (a : α) (f : α → Except ε β) : (Except.ok a >>= f) = f a := rfl

theorem map_eq_ok {f : α → β} {x : Except ε α} {b : β} :
    f <$> x = .ok b ↔ ∃ a, x = .ok a ∧ f a = b := by
  cases x <;> simp [Functor.map, Except.map]

theorem ite_error_eq_ok {c : Prop} [Decidable c] {e : ε} {x : Except ε α} {a : α} :
    (if c then .error e else x) = .ok a ↔ ¬c ∧ x = .ok a := by
  by_cases h : c <;> simp [h]

/-- Whether a step has a value of some kind is a matter of running it. -/
instance decidableSucceeds {x : Except ε α} {P : α → Prop} [DecidablePred P] :
    Decidable (∃ a, x = .ok a ∧ P a) :=
  match x with
  | .ok a => decidable_of_iff (P a) (by simp)
  | .error _ => isFalse (by simp)

instance decidableFails [DecidableEq ε] {x : Except ε α} {e : ε} : Decidable (x = .error e) :=
  match x with
  | .ok a => isFalse (by simp)
  | .error d => decidable_of_iff (d = e) (by simp)

@[simp] theorem Report.result_warn (w : Warning) : (Report.warn w).result = .ok () := rfl

@[simp] theorem Report.result_liftM (x : Except Error α) : (liftM x : Report α).result = x := rfl

/-- Values that may be missing and have the same image are both missing or both there. -/
theorem of_map_eq_map {γ : Type} {f : α → γ} {P : Option α → Prop} {x y : Option α}
    (h : x.map f = y.map f) (hx : P x) (hsome : ∀ a b, f a = f b → P (some a) → P (some b)) :
    P y := by
  cases x with
  | none =>
    obtain rfl := Option.map_eq_none_iff.1 h.symm
    exact hx
  | some a =>
    obtain ⟨b, rfl, hb⟩ := Option.map_eq_some_iff.1 h.symm
    exact hsome a b hb.symm hx

/-- An implication that holds for the members of the left list is enough. -/
theorem forall₂_imp_of_mem {R S : α → β → Prop} {xs : List α} {ys : List β}
    (h : List.Forall₂ R xs ys) (himp : ∀ x ∈ xs, ∀ y, R x y → S x y) : List.Forall₂ S xs ys := by
  induction h with
  | nil => exact .nil
  | cons hxy _ ih =>
    rw [List.forall_mem_cons] at himp
    exact .cons (himp.1 _ hxy) (ih himp.2)

theorem forall₂_of_map_eq {γ : Type} {f : α → γ} {g : β → γ} {R : α → β → Prop} {xs : List α}
    {ys : List β} (h : xs.map f = ys.map g) (hR : ∀ y ∈ ys, ∀ x, f x = g y → R x y) :
    List.Forall₂ R xs ys := by
  induction ys generalizing xs with
  | nil =>
    obtain rfl := List.map_eq_nil_iff.1 h
    exact .nil
  | cons y ys ih =>
    obtain ⟨x, xs, rfl, hx, hxs⟩ := List.map_eq_cons_iff.1 h
    rw [List.forall_mem_cons] at hR
    exact .cons (hR.1 x hx) (ih hxs hR.2)

theorem forall₂_map_map {γ : Type} {f : γ → α} {g : γ → β} {R : α → β → Prop} {cs : List γ}
    (h : ∀ c ∈ cs, R (f c) (g c)) : List.Forall₂ R (cs.map f) (cs.map g) := by
  rw [List.forall₂_map_left_iff, List.forall₂_map_right_iff, List.forall₂_same]
  exact h

theorem exists_mem_of_forall₂ {R : α → β → Prop} {xs : List α} {ys : List β}
    (h : List.Forall₂ R xs ys) {y : β} (hy : y ∈ ys) : ∃ x ∈ xs, R x y := by
  induction h with
  | nil => simp at hy
  | @cons x z xs zs hxz _ ih =>
    rcases List.mem_cons.1 hy with rfl | hy
    · exact ⟨x, List.mem_cons_self, hxz⟩
    · obtain ⟨w, hw, hwy⟩ := ih hy
      exact ⟨w, List.mem_cons_of_mem _ hw, hwy⟩

theorem exists_zip_of_mem {as : List α} {bs : List β} (h : as.length = bs.length)
    {b : β} (hb : b ∈ bs) : ∃ a, (a, b) ∈ as.zip bs := by
  obtain ⟨i, hi, rfl⟩ := List.getElem_of_mem hb
  have hi' : i < as.length := h ▸ hi
  exact ⟨as[i], List.mem_iff_getElem.2 ⟨i, by simpa [h] using hi, by simp⟩⟩

theorem filterMap_eq_of_zip {f : α → Option β} {as : List α} {bs : List β}
    (hlen : bs.length = as.length) (h : ∀ a b, (a, b) ∈ as.zip bs → f a = some b) :
    as.filterMap f = bs := by
  induction as generalizing bs with
  | nil => exact (List.eq_nil_of_length_eq_zero hlen).symm
  | cons a as ih =>
    rcases bs with _ | ⟨b, bs⟩
    · simp at hlen
    · have hrest : as.filterMap f = bs :=
        ih (by simpa using hlen) fun c d hcd => h c d (List.mem_cons_of_mem _ hcd)
      rw [List.filterMap_cons_some (h a b List.mem_cons_self), hrest]

theorem forall_zip_map {f : β → α} {R : α → β → Prop} {bs : List β} (h : ∀ b ∈ bs, R (f b) b) :
    ∀ a b, (a, b) ∈ (bs.map f).zip bs → R a b := by
  induction bs with
  | nil => simp
  | cons b bs ih =>
    rw [List.forall_mem_cons] at h
    intro a c hac
    rw [List.map_cons, List.zip_cons_cons, List.mem_cons, Prod.mk.injEq] at hac
    rcases hac with ⟨rfl, rfl⟩ | hac
    · exact h.1
    · exact ih h.2 a c hac

end Pddl
