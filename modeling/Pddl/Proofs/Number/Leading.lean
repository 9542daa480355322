import Pddl.Number.Decimal
import Pddl.Proofs.Text.Lines

namespace Pddl.Number

open Text

/-- The characters that numbers are written with, and all other letters. -/
def isMark (c : Char) : Bool := c.isAlphanum || c = '.' || c = '+' || c = '-'

theorem withinLine_isMark : WithinLine isMark := ⟨by decide, by decide⟩

variable {rest : List Char}

theorem isDigit_of_not_isMark (c : Char) (h : isMark c = false) : c.isDigit = false := by
  simp only [isMark, Char.isAlphanum, Bool.or_eq_false_iff] at h
  exact h.1.1.1.2

theorem takeDigits_append (h : Stops isMark rest) (cs : List Char) :
    takeDigits (cs ++ rest) = ((takeDigits cs).1, (takeDigits cs).2 ++ rest) := by
  have hdigit := h.mono isDigit_of_not_isMark
  simp only [takeDigits, hdigit.takeWhile_append, hdigit.dropWhile_append]

theorem head_ne (h : Stops isMark rest) {c : Char} (hc : isMark c = true) {tail : List Char} :
    rest ≠ c :: tail := by
  rintro rfl
  exact absurd (h c rfl) (by simp [hc])

theorem takeSign_append (h : Stops isMark rest) (cs : List Char) :
    takeSign (cs ++ rest) = ((takeSign cs).1, (takeSign cs).2 ++ rest) := by
  cases cs with
  | nil =>
    have hminus : ∀ tail, rest ≠ '-' :: tail := fun tail => head_ne h (by decide)
    have hplus : ∀ tail, rest ≠ '+' :: tail := fun tail => head_ne h (by decide)
    unfold takeSign
    split <;> simp_all
  | cons c cs =>
    rw [List.cons_append]
    unfold takeSign
    split <;> simp_all

theorem takeMantissa_append (h : Stops isMark rest) (cs : List Char) :
    takeMantissa (cs ++ rest) =
      (takeMantissa cs).map fun (whole, fraction, left) => (whole, fraction, left ++ rest) := by
  -- what follows is no point either, which `simp` takes from the context
  have hpoint : ∀ tail, rest ≠ '.' :: tail := fun tail => head_ne h (by decide)
  simp only [takeMantissa, takeDigits_append h]
  generalize takeDigits cs = digits
  obtain ⟨whole, _ | ⟨c, left⟩⟩ := digits
  · cases whole <;> simp
  · by_cases hc : c = '.'
    · subst hc
      cases whole with
      | nil =>
        simp only [List.cons_append, takeDigits_append h]
        generalize takeDigits left = fraction
        obtain ⟨_ | ⟨d, ds⟩, left⟩ := fraction <;> rfl
      | cons d ds => simp only [List.cons_append, takeDigits_append h, Option.map_some]
    · cases whole <;> simp [hc]

theorem takeExponent_append (h : Stops isMark rest) (cs : List Char) :
    takeExponent (cs ++ rest) =
      (takeExponent cs).map fun (exponent, left) => (exponent, left ++ rest) := by
  cases cs with
  | nil =>
    cases rest with
    | nil => rfl
    | cons c rest =>
      have hsmall : c ≠ 'e' := fun hc => head_ne h (c := 'e') (by decide) (by rw [hc])
      have hlarge : c ≠ 'E' := fun hc => head_ne h (c := 'E') (by decide) (by rw [hc])
      simp [takeExponent, hsmall, hlarge]
  | cons c cs =>
    simp only [List.cons_append, takeExponent, takeSign_append h, takeDigits_append h]
    split
    · generalize takeDigits (takeSign cs).2 = digits
      obtain ⟨_ | ⟨d, ds⟩, left⟩ := digits <;> rfl
    · rfl

theorem beginsWith_cons (w c : Char) (word cs : List Char) :
    beginsWith (w :: word) (c :: cs) = (c.toLower = w && beginsWith word cs) := by
  simp [beginsWith]

theorem toLower_of_not_isMark {c : Char} (h : isMark c = false) : c.toLower = c := by
  have halpha : c.isAlpha = (c.isUpper || c.isLower) := rfl
  simp only [isMark, Char.isAlphanum, halpha, Bool.or_eq_false_iff] at h
  exact dif_neg (of_decide_eq_false h.1.1.1.1.1)

theorem beginsWith_append (h : Stops isMark rest) (word : List Char)
    (hword : ∀ w ∈ word, isMark w = true) (cs : List Char) :
    beginsWith word (cs ++ rest) = beginsWith word cs := by
  induction word generalizing cs with
  | nil => simp [beginsWith]
  | cons w word ih =>
    rw [List.forall_mem_cons] at hword
    cases cs with
    | nil =>
      cases rest with
      | nil => rfl
      | cons c rest =>
        have hc : c.toLower ≠ w := by
          have hstop : isMark c = false := h c rfl
          rw [toLower_of_not_isMark hstop]
          rintro rfl
          exact absurd hword.1 (by simp [hstop])
        rw [List.nil_append, beginsWith_cons]
        simp [beginsWith, hc]
    | cons c cs => rw [List.cons_append, beginsWith_cons, beginsWith_cons, ih hword.2]

theorem length_le_of_beginsWith {word cs : List Char} (h : beginsWith word cs = true) :
    word.length ≤ cs.length := by
  have hlength := congrArg List.length (of_decide_eq_true h)
  simp only [List.length_map, List.length_take] at hlength
  omega

def Leading.extend (rest : List Char) : Leading → Leading
  | .absent => .absent
  | .unfinished => .unfinished
  | .present value left => .present value (left ++ rest)

/-- Whatever follows behind a character that no number holds, the same number is read. -/
theorem leading_append (h : Stops isMark rest) (cs : List Char) :
    leading (cs ++ rest) = (leading cs).extend rest := by
  simp only [leading, takeSign_append h, takeMantissa_append h]
  cases takeMantissa (takeSign cs).2 with
  | some mantissa =>
    obtain ⟨whole, fraction, left⟩ := mantissa
    simp only [Option.map_some, takeExponent_append h]
    cases takeExponent left <;> rfl
  | none =>
    have hnan : ∀ w ∈ ['n', 'a', 'n'], isMark w = true := List.all_eq_true.1 (by decide)
    have hinf : ∀ w ∈ ['i', 'n', 'f'], isMark w = true := List.all_eq_true.1 (by decide)
    simp only [Option.map_none, beginsWith_append h _ hnan, beginsWith_append h _ hinf]
    split
    · rename_i hword
      have hlength : 3 ≤ cs.length := length_le_of_beginsWith hword
      rw [List.drop_append_of_le_length hlength]
      rfl
    · split
      · rename_i hword
        have hlength : 3 ≤ cs.length := length_le_of_beginsWith hword
        rw [List.drop_append_of_le_length hlength]
        rfl
      · rfl

end Pddl.Number
