import Mathlib.Data.List.TakeWhile
import Pddl.Proofs.Text.Lower
import Pddl.Text.Join

namespace Pddl.Text

/-- Whether a run of characters that satisfy `p` ends in front of the text. -/
def Stops (p : Char → Bool) (rest : List Char) : Prop := ∀ c ∈ rest.head?, p c = false

theorem stops_nil (p : Char → Bool) : Stops p [] := by simp [Stops]

theorem stops_cons {p : Char → Bool} {c : Char} (h : p c = false) (cs : List Char) :
    Stops p (c :: cs) := by
  simpa [Stops] using h

theorem stops_dropWhile (p : Char → Bool) (cs : List Char) : Stops p (cs.dropWhile p) := by
  intro c hc
  have hnot := List.head?_dropWhile_not p cs
  rw [Option.mem_def.1 hc] at hnot
  simpa using hnot

namespace Stops

variable {p q : Char → Bool} {rest : List Char}

theorem mono (h : Stops q rest) (hpq : ∀ c, q c = false → p c = false) : Stops p rest :=
  fun c hc => hpq c (h c hc)

theorem takeWhile_append (h : Stops p rest) (cs : List Char) :
    (cs ++ rest).takeWhile p = cs.takeWhile p := by
  induction cs with
  | nil =>
    cases rest with
    | nil => rfl
    | cons c rest => simp [h c rfl]
  | cons c cs ih => simp only [List.cons_append, List.takeWhile_cons, ih]

theorem dropWhile_append (h : Stops p rest) (cs : List Char) :
    (cs ++ rest).dropWhile p = cs.dropWhile p ++ rest := by
  induction cs with
  | nil =>
    cases rest with
    | nil => rfl
    | cons c rest => simp [h c rfl]
  | cons c cs ih =>
    simp only [List.cons_append, List.dropWhile_cons, ih]
    split <;> rfl

theorem takeWhile_run (h : Stops p rest) {run : List Char} (hrun : ∀ c ∈ run, p c = true) :
    (run ++ rest).takeWhile p = run := by
  rw [h.takeWhile_append, List.takeWhile_eq_self_iff.2 hrun]

theorem dropWhile_run (h : Stops p rest) {run : List Char} (hrun : ∀ c ∈ run, p c = true) :
    (run ++ rest).dropWhile p = rest := by
  rw [h.dropWhile_append, List.dropWhile_eq_nil_iff.2 hrun, List.nil_append]

end Stops

def AtLineEnd (cs : List Char) : Prop := ∀ c ∈ cs.head?, c = '\r' ∨ c = '\n'

theorem atLineEnd_nil : AtLineEnd [] := by simp [AtLineEnd]

theorem atLineEnd_cons {c : Char} (h : c = '\r' ∨ c = '\n') (cs : List Char) : AtLineEnd (c :: cs) := by
  simpa [AtLineEnd] using h

/-- Whether the characters of a class end no line. -/
structure WithinLine (p : Char → Bool) : Prop where
  carriageReturn : p '\r' = false
  lineFeed : p '\n' = false

theorem WithinLine.stops {p : Char → Bool} (hp : WithinLine p) {rest : List Char}
    (h : AtLineEnd rest) : Stops p rest := by
  intro c hc
  rcases h c hc with rfl | rfl
  · exact hp.carriageReturn
  · exact hp.lineFeed

theorem linesFrom_append {l : List Char} (h : '\n' ∉ l) (line cs : List Char) :
    linesFrom line (l ++ cs) = linesFrom (l.reverse ++ line) cs := by
  induction l generalizing line with
  | nil => rfl
  | cons c l ih =>
    rw [List.mem_cons, not_or] at h
    rw [List.cons_append, linesFrom, if_neg (Ne.symm h.1), ih h.2]
    simp

theorem lines_of_not_mem {l : List Char} (h : '\n' ∉ l) : lines l = if l = [] then [] else [l] := by
  have hlines := linesFrom_append h [] []
  rw [List.append_nil, List.append_nil] at hlines
  rw [lines, hlines, linesFrom]
  simp

theorem lines_append_newline {l : List Char} (h : '\n' ∉ l) (cs : List Char) :
    lines (l ++ '\n' :: cs) = dropReturn l :: lines cs := by
  rw [lines, linesFrom_append h, linesFrom, if_pos rfl, List.append_nil, List.reverse_reverse]
  rfl

theorem not_mem_of_mem_linesFrom {line cs l : List Char} (hline : '\n' ∉ line)
    (h : l ∈ linesFrom line cs) : '\n' ∉ l := by
  induction cs generalizing line with
  | nil =>
    unfold linesFrom at h
    split at h
    · simp at h
    · simpa [List.mem_singleton.1 h] using hline
  | cons c cs ih =>
    unfold linesFrom at h
    split at h
    · rcases List.mem_cons.1 h with rfl | h
      · unfold dropReturn
        split
        · exact fun hmem => hline (List.mem_reverse.1 (List.dropLast_subset _ hmem))
        · exact fun hmem => hline (List.mem_reverse.1 hmem)
      · exact ih List.not_mem_nil h
    · rename_i hc
      exact ih (by simp [Ne.symm hc, hline]) h

theorem not_mem_of_mem_lines {cs l : List Char} (h : l ∈ lines cs) : '\n' ∉ l :=
  not_mem_of_mem_linesFrom List.not_mem_nil h

/-- The first of several joined lines; a carriage return at its end goes with the line feed, and an
empty line counts only in front of others. -/
theorem lines_joinWith_cons {l : String} (h : '\n' ∉ l.toList) (ls : List String) :
    ∃ front, lines (joinWith "\n" (l :: ls)).toList = front ++ lines (joinWith "\n" ls).toList ∧
      (front = [dropReturn l.toList] ∨ front = [l.toList] ∨ front = [] ∧ l.toList = []) := by
  cases ls with
  | nil =>
    rw [joinWith, joinWith, lines_of_not_mem h]
    by_cases hempty : l.toList = []
    · exact ⟨[], by simp [hempty, lines, linesFrom], Or.inr (Or.inr ⟨rfl, hempty⟩)⟩
    · exact ⟨[l.toList], by simp [hempty, lines, linesFrom], Or.inr (Or.inl rfl)⟩
  | cons m ls =>
    have hjoin : (joinWith "\n" (l :: m :: ls)).toList =
        l.toList ++ '\n' :: (joinWith "\n" (m :: ls)).toList := by
      simp [joinWith]
    rw [hjoin, lines_append_newline h]
    exact ⟨[dropReturn l.toList], rfl, Or.inl rfl⟩

theorem prepareChars_of_not_mem {l : List Char} (h : '\n' ∉ l) : prepareChars l = prepareLine l := by
  rw [prepareChars, lines_of_not_mem h]
  split
  · rename_i hnil
    rw [hnil]
    rfl
  · simp [List.intercalate]

theorem prepareChars_eq_lower {l : List Char} (h : ∀ c ∈ l, c ≠ '\n' ∧ c ≠ ';' ∧ c ≠ '[') :
    prepareChars l = lower l := by
  rw [prepareChars_of_not_mem fun hmem => (h _ hmem).1 rfl, prepareLine,
    cutComment_of_not_mem (fun hmem => (h _ hmem).2.1 rfl) fun hmem => (h _ hmem).2.2 rfl]

theorem cutComment_append_return (inside : Bool) (cs : List Char) :
    cutComment inside (cs ++ ['\r']) = cutComment inside cs ∨
      cutComment inside (cs ++ ['\r']) = cutComment inside cs ++ ['\r'] := by
  induction cs generalizing inside with
  | nil => exact Or.inr (by simp [cutComment])
  | cons c cs ih =>
    have hcons : ∀ flag, c :: cutComment flag (cs ++ ['\r']) = c :: cutComment flag cs ∨
        c :: cutComment flag (cs ++ ['\r']) = c :: cutComment flag cs ++ ['\r'] := fun flag =>
      (ih flag).imp (congrArg (c :: ·)) (congrArg (c :: ·))
    simp only [List.cons_append, cutComment]
    split
    · exact hcons true
    · split
      · exact hcons false
      · split
        · exact Or.inl rfl
        · exact hcons inside

/-- All that a carriage return at the end of a line can leave of itself is a carriage return. -/
theorem prepareLine_eq_append (l : List Char) :
    ∃ rest, prepareLine l = prepareLine (dropReturn l) ++ rest ∧ (rest = [] ∨ rest = ['\r']) := by
  have hreturn : Parts '\r' := parts_of_sign (Or.inr (Or.inl rfl))
  unfold dropReturn
  split
  · rename_i hlast
    obtain ⟨cs, rfl⟩ := List.getLast?_eq_some_iff.1 hlast
    rw [List.dropLast_concat]
    rcases cutComment_append_return false cs with hcut | hcut
    · exact ⟨[], by simp [prepareLine, hcut], Or.inl rfl⟩
    · exact ⟨['\r'], by rw [prepareLine, hcut, lower_append_cons hreturn]; rfl, Or.inr rfl⟩
  · exact ⟨[], by simp, Or.inl rfl⟩

end Pddl.Text
