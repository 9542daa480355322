import Pddl.Proofs.Text.Settled

namespace Pddl.Text

/-- A character that lowercase may write for another one. -/
def IsLetterForm (c : Char) : Prop := 0x61 ≤ c.toNat ∧ isWordChar c = true

instance (c : Char) : Decidable (IsLetterForm c) :=
  inferInstanceAs (Decidable (0x61 ≤ c.toNat ∧ isWordChar c = true))

set_option maxRecDepth 100000 in
theorem isLetterForm_of_mem_image :
    ∀ r ∈ lowercaseRows, ∀ m ∈ r.image, IsLetterForm (Char.ofNat m) := by
  have hall : (lowercaseRows.all fun r => r.image.all fun m => IsLetterForm (Char.ofNat m)) = true := by
    decide +kernel
  intro r hr m hm
  exact of_decide_eq_true (List.all_eq_true.1 (List.all_eq_true.1 hall r hr) m hm)

theorem isLetterForm_toLower {c : Char} (h : c.toNat < 0x80) :
    c.toLower = c ∨ IsLetterForm c.toLower := by
  have hall : ∀ n : Fin 0x80, (Char.ofNat n).toLower = Char.ofNat n ∨
      IsLetterForm (Char.ofNat n).toLower := by
    decide
  simpa only [Char.ofNat_toNat] using hall ⟨c.toNat, h⟩

theorem eq_or_isLetterForm_of_mem_lowerChar {c d : Char} (h : d ∈ lowerChar c) :
    d = c ∨ IsLetterForm d := by
  unfold lowerChar at h
  split at h
  · rename_i hascii
    rw [List.mem_singleton.1 h]
    exact isLetterForm_toLower hascii
  · split at h
    · simp only [List.mem_cons, List.not_mem_nil, or_false] at h
      rcases h with rfl | rfl <;> exact Or.inr (by decide)
    · split at h
      · rename_i m hm
        obtain ⟨r, hr, hlow⟩ := List.exists_of_findSome?_eq_some hm
        rw [List.mem_singleton.1 h]
        exact Or.inr (isLetterForm_of_mem_image r hr m (CaseRow.mem_image_of_lowered? hlow))
      · exact Or.inl (List.mem_singleton.1 h)

theorem lowerChar_ne_nil (c : Char) : lowerChar c ≠ [] := by
  unfold lowerChar
  split
  · simp
  · split
    · simp
    · split <;> simp

theorem lowerAfter_cons (before : List Char) (c : Char) (cs : List Char) :
    ∃ low, lowerAfter before (c :: cs) = low ++ lowerAfter (c :: before) cs ∧ low ≠ [] ∧
      (∀ d ∈ low, d = c ∨ IsLetterForm d) ∧ (Settled c → low = [c]) := by
  refine ⟨_, rfl, ?_⟩
  by_cases hsigma : c = 'Σ'
  · -- its place in a word decides between two forms, and both are letters
    rw [if_pos hsigma]
    have hform : ∀ d ∈ ['ς', 'σ'], d = c ∨ IsLetterForm d := fun d hd => by
      simp only [List.mem_cons, List.not_mem_nil, or_false] at hd
      rcases hd with rfl | rfl <;> exact Or.inr (by decide)
    refine ⟨by split <;> simp, fun d hd => hform d ?_, fun hc => absurd hsigma hc.2⟩
    split at hd <;> simp [List.mem_singleton.1 hd]
  · rw [if_neg hsigma]
    exact ⟨lowerChar_ne_nil c, fun d => eq_or_isLetterForm_of_mem_lowerChar, fun hc => hc.1⟩

variable {p : Char → Prop} {before cs : List Char}

theorem forall_mem_lowerAfter (hform : ∀ c, IsLetterForm c → p c) (h : ∀ c ∈ cs, p c) :
    ∀ c ∈ lowerAfter before cs, p c := by
  induction cs generalizing before with
  | nil => simp [lowerAfter]
  | cons c cs ih =>
    obtain ⟨hc, hcs⟩ := List.forall_mem_cons.1 h
    obtain ⟨low, heq, -, hlow, -⟩ := lowerAfter_cons before c cs
    rw [heq]
    refine List.forall_mem_append.2 ⟨fun d hd => ?_, ih hcs⟩
    rcases hlow d hd with rfl | hd
    · exact hc
    · exact hform d hd

/-- Lowercase keeps the texts of a class of characters that it neither writes nor changes. -/
theorem forall_mem_lowerAfter_iff (hform : ∀ c, IsLetterForm c → ¬p c)
    (hsettled : ∀ c, p c → Settled c) :
    (∀ c ∈ lowerAfter before cs, p c) ↔ ∀ c ∈ cs, p c := by
  induction cs generalizing before with
  | nil => simp [lowerAfter]
  | cons c cs ih =>
    obtain ⟨low, heq, hne, hlow, hkept⟩ := lowerAfter_cons before c cs
    rw [heq, List.forall_mem_append, List.forall_mem_cons, ih]
    refine and_congr_left fun _ => ⟨fun h => ?_, fun hc => ?_⟩
    · obtain ⟨d, low, rfl⟩ := List.exists_cons_of_ne_nil hne
      have hd : p d := h d List.mem_cons_self
      rcases hlow d List.mem_cons_self with rfl | hform'
      · exact hd
      · exact absurd hd (hform d hform')
    · rw [hkept (hsettled c hc)]
      simpa using hc

/-- A character that lowercase neither changes nor looks across. -/
structure Parts (c : Char) : Prop where
  settled : Settled c
  counts : isCaseIgnorable c = false
  uncased : isCased c = false

variable {c : Char}

theorem parts_of_sign (h : c = ' ' ∨ c = '\r' ∨ c = '(' ∨ c = ')') : Parts c := by
  rcases h with rfl | rfl | rfl | rfl <;>
    exact ⟨by decide, by decide +kernel, by decide +kernel⟩

theorem meetsCased_append_cons (hc : Parts c) (xs ys : List Char) :
    meetsCased (xs ++ c :: ys) = meetsCased xs := by
  induction xs with
  | nil => simp [meetsCased, hc.counts, hc.uncased]
  | cons d xs ih =>
    by_cases hd : isCaseIgnorable d = true
    · simpa [meetsCased, hd] using ih
    · simp [meetsCased, hd]

theorem lowerAfter_append_cons (hc : Parts c) (before xs ys : List Char) :
    lowerAfter before (xs ++ c :: ys) =
      lowerAfter before xs ++ c :: lowerAfter (c :: (xs.reverse ++ before)) ys := by
  induction xs generalizing before with
  | nil =>
    obtain ⟨low, heq, -, -, hkept⟩ := lowerAfter_cons before c ys
    rw [List.nil_append, heq, hkept hc.settled]
    rfl
  | cons d xs ih =>
    simp only [List.cons_append, lowerAfter, meetsCased_append_cons hc, ih, List.append_assoc,
      List.reverse_cons, List.nil_append]

theorem lowerAfter_behind (hc : Parts c) (front before cs : List Char) :
    lowerAfter (front ++ c :: before) cs = lowerAfter front cs := by
  induction cs generalizing front with
  | nil => rfl
  | cons d cs ih =>
    have hfront := ih (d :: front)
    rw [List.cons_append] at hfront
    simp only [lowerAfter, meetsCased_append_cons hc, hfront]

theorem lower_append_cons (hc : Parts c) (xs ys : List Char) :
    lower (xs ++ c :: ys) = lower xs ++ c :: lower ys := by
  rw [lower, lowerAfter_append_cons hc]
  exact congrArg (lower xs ++ c :: ·) (lowerAfter_behind hc [] _ ys)

end Pddl.Text
