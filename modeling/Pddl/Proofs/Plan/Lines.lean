import Pddl.Proofs.Plan.Steps

namespace Pddl

open Text

namespace Plan

open Attempt PlanStep

def isBlankLine (line : String) : Bool :=
  (prepare line).toList.all fun c => c = ' ' || c = '\t' || c = '\r'

variable {line : String}

theorem isMargin_of_isBlankLine (h : '\n' ∉ line.toList) (hblank : isBlankLine line = true) :
    IsMargin (prepareLine line.toList) := by
  rw [← prepareChars_of_not_mem h]
  intro c hc
  have hc' := List.all_eq_true.1 hblank c (by rwa [prepare, String.toList_ofList])
  simp only [Bool.or_eq_true] at hc'
  rcases hc' with (hspace | htab) | hreturn
  · simp [isMargin, hspace]
  · simp [isMargin, htab]
  · simp [isMargin, hreturn]

variable {first second : List PlanStep} {cs tail : List Char}

/-- A carriage return at the end of a line belongs to its margin. -/
theorem holds_of_append (htail : tail = [] ∨ tail = ['\r']) (h : Holds first (cs ++ tail)) :
    Holds first cs := by
  rcases htail with rfl | rfl
  · rwa [List.append_nil] at h
  · obtain ⟨front, back, rfl, hfront, hback⟩ := h.exists_append (Or.inl rfl)
    cases back with
    | nil => rwa [List.append_nil]
    | cons s back => exact absurd rfl hback.ne_nil

theorem holds_joinWith_cons (h : '\n' ∉ line.toList) {ls : List String}
    (hfirst : Holds first (prepareLine line.toList))
    (hsecond : Holds second (prepareChars (joinWith "\n" ls).toList)) :
    Holds (first ++ second) (prepareChars (joinWith "\n" (line :: ls)).toList) := by
  obtain ⟨front, hjoin, hfront⟩ := lines_joinWith_cons h ls
  obtain ⟨tail, htail, hreturn⟩ := prepareLine_eq_append line.toList
  obtain ⟨rows, rfl, hrows⟩ := holds_intercalate.1 hsecond
  rw [prepareChars, hjoin, List.map_append, holds_intercalate]
  rcases hfront with rfl | rfl | ⟨rfl, hempty⟩
  · rw [htail] at hfirst
    exact ⟨first :: rows, rfl, .cons (holds_of_append hreturn hfirst) hrows⟩
  · exact ⟨first :: rows, rfl, .cons hfirst hrows⟩
  · rw [hempty] at hfirst
    cases first with
    | nil => exact ⟨rows, rfl, hrows⟩
    | cons s first => exact absurd rfl hfirst.ne_nil

/-- A plan is read line by line: joined with line feeds, lines that are blank or steps make the plan
of just these steps in their order. -/
theorem ofText_joinWith {ls : List String} (hbreak : ∀ l ∈ ls, '\n' ∉ l.toList)
    (h : ∀ l ∈ ls, isBlankLine l = true ∨ ∃ s, PlanStep.ofLine l = .ok s) :
    ∃ steps, ofText (joinWith "\n" ls) = .ok steps ∧
      List.Forall₂ (fun l s => PlanStep.ofLine l = .ok s)
        (ls.filter fun l => !isBlankLine l) steps := by
  induction ls with
  | nil => exact ⟨[], ofText_eq_ok.2 (.nil (List.forall_mem_nil _)), .nil⟩
  | cons l ls ih =>
    rw [List.forall_mem_cons] at hbreak h
    obtain ⟨steps, hplan, hsteps⟩ := ih hbreak.2 h.2
    rw [ofText_eq_ok] at hplan
    by_cases hblank : isBlankLine l = true
    · have hmargin : Holds [] (prepareLine l.toList) :=
        .nil (isMargin_of_isBlankLine hbreak.1 hblank)
      exact ⟨steps, ofText_eq_ok.2 (holds_joinWith_cons hbreak.1 hmargin hplan),
        by simpa [hblank] using hsteps⟩
    · obtain ⟨s, hs⟩ := h.1.resolve_left hblank
      have hline : Holds [s] (prepareLine l.toList) := by
        rw [← prepareChars_of_not_mem hbreak.1]
        exact ofLine_eq_ok.1 hs
      exact ⟨s :: steps, ofText_eq_ok.2 (holds_joinWith_cons hbreak.1 hline hplan),
        by simpa [hblank] using ⟨hs, hsteps⟩⟩

def drive : List String :=
  ["0.5: (Drive t1 a) [D:2.00; C:1.00] \r", "; a comment", "", "  stop T1", "\t"]

theorem ofText_joinWith_drive : ∃ steps, ofText (joinWith "\n" drive) = .ok steps ∧
    List.Forall₂ (fun l s => PlanStep.ofLine l = .ok s)
      (drive.filter fun l => !isBlankLine l) steps ∧ steps.length = 2 := by
  have hbreak : ∀ l ∈ drive, '\n' ∉ l.toList := by decide +kernel
  have hlines : ∀ l ∈ drive, isBlankLine l = true ∨ ∃ s, PlanStep.ofLine l = .ok s ∧ True := by
    decide +kernel
  obtain ⟨steps, hsteps, hall⟩ := ofText_joinWith hbreak fun l hl =>
    (hlines l hl).imp_right fun ⟨s, hs, _⟩ => ⟨s, hs⟩
  have hlength : (drive.filter fun l => !isBlankLine l).length = 2 := by decide +kernel
  exact ⟨steps, hsteps, hall, hall.length_eq ▸ hlength⟩

end Plan

end Pddl
