import Pddl.Number.Shortest
import Pddl.Proofs.Number.Order
import Pddl.Proofs.Tree.Spelling

namespace Pddl.Number

open Text

/-- Whether the text of the number is read as an equal number. -/
def ReadsBack (n : Number) : Prop := ∃ m, ofChars? n.toChars = some m ∧ compare m n = .eq

instance (n : Number) : Decidable n.ReadsBack :=
  decidable_of_iff ((ofChars? n.toChars).any fun m => compare m n = .eq)
    (by simp [ReadsBack, Option.any_eq_true])

/-- The word that stands for the number in a prepared text. -/
def word (n : Number) : String := spelled n.toChars

def IsNumeral (c : Char) : Prop := c.isDigit = true ∨ c = '.' ∨ c = '-'

theorem IsNumeral.plain {c : Char} (h : IsNumeral c) : isWordChar c = true ∧ Settled c := by
  rcases h with hdigit | rfl | rfl
  · have hdigits : ∀ n ∈ List.range' 48 10,
        isWordChar (Char.ofNat n) = true ∧ Settled (Char.ofNat n) := by decide
    simp only [Char.isDigit, Bool.and_eq_true, decide_eq_true_eq, ge_iff_le,
      UInt32.le_iff_toNat_le] at hdigit
    have hmem : c.toNat ∈ List.range' 48 10 := by
      rw [List.mem_range'_1]
      exact ⟨hdigit.1, Nat.lt_succ_of_le hdigit.2⟩
    simpa [Char.ofNat_toNat] using hdigits c.toNat hmem
  · decide
  · decide

theorem isDigit_of_mem_toDigits {n : Nat} {c : Char} (hc : c ∈ Nat.toDigits 10 n) : c.isDigit = true :=
  Nat.isDigit_of_mem_toDigits (by decide) (by decide) hc

theorem isDigit_of_mem_padded {width n : Nat} {c : Char} (hc : c ∈ padded width n) :
    c.isDigit = true := by
  rcases List.mem_append.1 hc with hc | hc
  · rw [List.eq_of_mem_replicate hc]
    rfl
  · exact isDigit_of_mem_toDigits hc

theorem isNumeral_toDigits {n : Nat} : ∀ c ∈ Nat.toDigits 10 n, IsNumeral c := fun _ hc =>
  Or.inl (isDigit_of_mem_toDigits hc)

theorem plainWord_toString (n : Nat) : PlainWord (toString n) := by
  have hdigits : (toString n).toList = Nat.toDigits 10 n := Nat.toList_repr
  refine ⟨?_, ?_, ?_⟩ <;> rw [hdigits]
  · exact Nat.toDigits_ne_nil
  · exact fun c hc => (isNumeral_toDigits c hc).plain.1
  · exact fun c hc => (isNumeral_toDigits c hc).plain.2

theorem isNumeral_chars (d : Decimal) : ∀ c ∈ d.chars, IsNumeral c := by
  unfold Decimal.chars
  split
  · exact isNumeral_toDigits
  · intro c hc
    rcases List.mem_append.1 hc with hc | hc
    · exact isNumeral_toDigits c hc
    · rcases List.mem_cons.1 hc with rfl | hc
      · exact Or.inr (Or.inl rfl)
      · exact Or.inl (isDigit_of_mem_padded hc)

theorem chars_ne_nil (d : Decimal) : d.chars ≠ [] := by
  unfold Decimal.chars
  split
  · exact Nat.toDigits_ne_nil
  · simp

theorem isNumeral_magnitudeChars (units : Nat) : ∀ c ∈ magnitudeChars units, IsNumeral c := by
  unfold magnitudeChars
  split
  · simp only [List.mem_singleton, forall_eq]
    exact Or.inl rfl
  · exact isNumeral_chars _

theorem magnitudeChars_ne_nil (units : Nat) : magnitudeChars units ≠ [] := by
  unfold magnitudeChars
  split
  · exact List.cons_ne_nil _ _
  · exact chars_ne_nil _

theorem plainWord_finite (negative : Bool) (units : Nat) :
    PlainWord (Number.finite negative units).toString := by
  have hnumeral : ∀ c ∈ (Number.finite negative units).toChars, IsNumeral c := by
    cases negative with
    | false => exact isNumeral_magnitudeChars units
    | true =>
      rw [toChars, List.forall_mem_cons]
      exact ⟨Or.inr (Or.inr rfl), isNumeral_magnitudeChars units⟩
  rw [Number.toString]
  refine ⟨?_, ?_, ?_⟩ <;> rw [String.toList_ofList]
  · cases negative with
    | false => exact magnitudeChars_ne_nil units
    | true => exact List.cons_ne_nil _ _
  · exact fun c hc => (hnumeral c hc).plain.1
  · exact fun c hc => (hnumeral c hc).plain.2

theorem rawWord_toChars (n : Number) : RawWord n.toChars := by
  cases n with
  | nan => decide
  | infinite negative => cases negative <;> decide
  | finite negative units =>
    simpa [Number.toString] using (plainWord_finite negative units).raw

theorem word_finite (negative : Bool) (units : Nat) :
    (Number.finite negative units).word = (Number.finite negative units).toString := by
  simpa [word, Number.toString] using (plainWord_finite negative units).spelled

theorem rank_eq_of_compare {m n : Number} (h : compare m n = .eq) : m.rank = n.rank := by
  have hplace : compare m.place n.place = .eq := h
  exact toLex_inj.1 (compare_eq_iff_eq.1 hplace)

/-- Only zeros share their place with another number. -/
theorem eq_of_rank_eq {m : Number} {negative : Bool} {units : Nat}
    (h : m.rank = (Number.finite negative units).rank) :
    m = .finite negative units ∨ units = 0 := by
  cases m with
  | nan => cases negative <;> simp [rank] at h
  | infinite s => cases s <;> cases negative <;> simp [rank] at h
  | finite s u =>
    cases s <;> cases negative <;>
      simp only [rank, Prod.mk.injEq, true_and, Number.finite.injEq, reduceCtorEq, false_and,
        false_or] at h ⊢ <;>
      omega

theorem ofChars?_zero (negative : Bool) :
    ofChars? (Number.finite negative 0).toChars = some (.finite negative 0) := by
  cases negative <;> rfl

theorem ReadsBack.ofChars?_word {n : Number} (h : n.ReadsBack) :
    ofChars? n.word.toList = some n := by
  obtain ⟨m, hm, hcompare⟩ := h
  cases n with
  | nan => rfl
  | infinite negative =>
    cases negative with
    | false => rfl
    | true =>
      have hnone : ofChars? (infinite true).toChars = none := rfl
      simp [hnone] at hm
  | finite negative units =>
    rw [word_finite, Number.toString, String.toList_ofList]
    rcases eq_of_rank_eq (rank_eq_of_compare hcompare) with rfl | rfl
    · exact hm
    · exact ofChars?_zero negative

theorem readsBack_zero : zero.ReadsBack := ⟨zero, ofChars?_zero false, rfl⟩

end Pddl.Number
