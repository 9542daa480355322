import Pddl.Proofs.Plan.Steps

namespace Pddl

open Text

namespace PlanStep

theorem isMargin_lower {cs : List Char} : IsMargin (lower cs) ↔ IsMargin cs := by
  refine forall_mem_lowerAfter_iff (fun c hform hmargin => ?_) fun c hmargin => ?_
  · rcases isMargin_iff.1 hmargin with rfl | rfl | rfl | rfl <;> exact absurd hform.1 (by decide)
  · rcases isMargin_iff.1 hmargin with rfl | rfl | rfl | rfl <;> decide

theorem isMargin_cutComment {cs : List Char} :
    IsMargin (cutComment false cs) ↔ (cs.dropWhile isMargin).head?.all (· = ';') = true := by
  induction cs with
  | nil => simp [cutComment, IsMargin]
  | cons c cs ih =>
    by_cases hc : isMargin c = true
    · have hkept : cutComment false (c :: cs) = c :: cutComment false cs := by
        rcases isMargin_iff.1 hc with rfl | rfl | rfl | rfl <;> rfl
      rw [hkept, List.dropWhile_cons_of_pos hc, ← ih]
      simp [IsMargin, hc]
    · rw [List.dropWhile_cons_of_neg hc]
      by_cases hsemi : c = ';'
      · subst hsemi
        simp [cutComment, IsMargin]
      · have hkept : ∃ rest, cutComment false (c :: cs) = c :: rest := by
          simp only [cutComment, hsemi]
          split
          · exact ⟨_, rfl⟩
          · split <;> exact ⟨_, rfl⟩
        obtain ⟨rest, hkept⟩ := hkept
        simp [hkept, IsMargin, hc, hsemi]

end PlanStep

namespace Plan

open PlanStep

/-- Whether a line is blank or holds nothing but a comment. -/
def isBare (line : String) : Bool := (line.toList.dropWhile isMargin).head?.all (· = ';')

def linesOf (text : String) : List String := (lines text.toList).map String.ofList

/-- The steps of one line: there is none if the line is bare, and just one if the line is a step. -/
structure IsRow (line : String) (row : Plan) : Prop where
  read : ofText line = .ok row
  nil_iff : row = [] ↔ isBare line = true
  singleton_iff (s : PlanStep) : row = [s] ↔ PlanStep.ofLine line = .ok s

variable {steps first second row : List PlanStep} {line : String} {cs : List Char}

theorem Holds.unique (hfirst : Holds first cs) (hsecond : Holds second cs) : first = second := by
  have hread := (readSteps_eq_ok (e := ⟨.origin, cs⟩)).2 hfirst
  rw [(readSteps_eq_ok (e := ⟨.origin, cs⟩)).2 hsecond] at hread
  exact (Except.ok.inj hread).symm

theorem isMargin_prepareLine : IsMargin (prepareLine line.toList) ↔ isBare line = true := by
  rw [prepareLine, isMargin_lower, isMargin_cutComment, isBare]

theorem isRow_of_holds (hline : '\n' ∉ line.toList) (h : Holds row (prepareLine line.toList)) :
    IsRow line row := by
  have hprepared : prepareChars line.toList = prepareLine line.toList :=
    prepareChars_of_not_mem hline
  refine ⟨ofText_eq_ok.2 (hprepared ▸ h), ?_, fun s => ?_⟩
  · rw [← isMargin_prepareLine, ← holds_nil]
    exact ⟨fun hrow => hrow ▸ h, h.unique⟩
  · rw [ofLine_eq_ok, hprepared]
    exact ⟨fun hrow => hrow ▸ h, h.unique⟩

theorem exists_rows {text : String} (h : ofText text = .ok steps) :
    ∃ rows, steps = rows.flatten ∧ List.Forall₂ IsRow (linesOf text) rows := by
  obtain ⟨rows, hsteps, hrows⟩ := holds_intercalate.1 (ofText_eq_ok.1 h)
  refine ⟨rows, hsteps, ?_⟩
  rw [List.forall₂_map_right_iff] at hrows
  rw [linesOf, List.forall₂_map_left_iff]
  have hlines : ∀ l ∈ lines text.toList, '\n' ∉ l := fun l => not_mem_of_mem_lines
  have hboth := (List.forall₂_and_left _ _).2 ⟨hlines, hrows.flip⟩
  refine hboth.imp fun l row ⟨hl, hrow⟩ => isRow_of_holds ?_ ?_
  · rwa [String.toList_ofList]
  · rwa [String.toList_ofList]

/-- Only the steps behind the first one of a line are more than the lines. -/
theorem IsRow.length (h : IsRow line row) :
    (if isBare line then 0 else 1) ≤ row.length ∧
      (row.length = (if isBare line then 0 else 1) ↔
        isBare line = true ∨ ∃ s, PlanStep.ofLine line = .ok s) := by
  by_cases hbare : isBare line = true
  · simp [hbare, h.nil_iff.2 hbare]
  · have hne : row ≠ [] := fun hrow => hbare (h.nil_iff.1 hrow)
    simp only [hbare, ← h.singleton_iff]
    exact ⟨List.length_pos_iff.2 hne, by simp [List.length_eq_one_iff]⟩

theorem length_of_rows {lines : List String} {rows : List Plan} (h : List.Forall₂ IsRow lines rows) :
    lines.countP (!isBare ·) ≤ rows.flatten.length ∧
      (rows.flatten.length = lines.countP (!isBare ·) ↔
        ∀ line ∈ lines, isBare line = true ∨ ∃ s, PlanStep.ofLine line = .ok s) := by
  induction h with
  | nil => simp
  | @cons line row lines rows hrow _ ih =>
    obtain ⟨hle, heq⟩ := hrow.length
    have hcount : (line :: lines).countP (!isBare ·) =
        lines.countP (!isBare ·) + if isBare line then 0 else 1 := by
      rw [List.countP_cons]
      cases isBare line <;> rfl
    rw [hcount, List.flatten_cons, List.length_append, List.forall_mem_cons, ← heq, ← ih.2]
    omega

/-- An accepted text is accepted line by line. A line that is neither blank nor a comment gives one
step at least, so the steps are as many as these lines just if each of them is a step. -/
theorem ofText_rows {text : String} {steps : Plan} (h : ofText text = .ok steps) :
    (∃ rows, steps = rows.flatten ∧ List.Forall₂ IsRow (linesOf text) rows) ∧
      (linesOf text).countP (!isBare ·) ≤ steps.length ∧
      (steps.length = (linesOf text).countP (!isBare ·) ↔
        ∀ line ∈ linesOf text, isBare line = true ∨ ∃ s, PlanStep.ofLine line = .ok s) := by
  obtain ⟨rows, rfl, hrows⟩ := exists_rows h
  exact ⟨⟨rows, rfl, hrows⟩, length_of_rows hrows⟩

def crowded : String := "(a x) (b y)\n ; note\n\n0.5: go"

theorem ofText_rows_crowded : ∃ steps, ofText crowded = .ok steps ∧ steps.length = 3 ∧
    (linesOf crowded).countP (!isBare ·) = 2 ∧
    (∃ rows, steps = rows.flatten ∧ List.Forall₂ IsRow (linesOf crowded) rows) ∧
    ¬∀ line ∈ linesOf crowded, isBare line = true ∨ ∃ s, PlanStep.ofLine line = .ok s := by
  have hread : ∃ steps, ofText crowded = .ok steps ∧ steps.length = 3 := by decide +kernel
  have hcount : (linesOf crowded).countP (!isBare ·) = 2 := by decide +kernel
  obtain ⟨steps, hsteps, hlength⟩ := hread
  obtain ⟨hrows, -, hiff⟩ := ofText_rows hsteps
  exact ⟨steps, hsteps, hlength, hcount, hrows, fun hall => by
    have heq := hiff.2 hall
    omega⟩

/-- A plan may have two steps on one line, and this line is no step. -/
theorem ofText_pair : ofText "(a x) (b y)" =
      .ok [⟨"a", ["x"], none, none, none⟩, ⟨"b", ["y"], none, none, none⟩] ∧
    linesOf "(a x) (b y)" = ["(a x) (b y)"] ∧ isBare "(a x) (b y)" = false ∧
    PlanStep.ofLine "(a x) (b y)" = .error (.malformed 1 7 (.unrecognized "(b y)")) := by
  decide +kernel

end Plan

end Pddl
