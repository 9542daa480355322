import Mathlib.Data.List.DropRight
import Pddl.Plan.Basic
import Pddl.Proofs.Plan.Bounded
import Pddl.Proofs.Success

namespace Pddl

open Text

namespace Attempt

variable {α β : Type}

theorem finish_eq_ok {a : Attempt α} {value : α} :
    a.finish = .ok value ↔ ∃ rest, a = .done value rest ∧ rest.chars = [] := by
  cases a with
  | done v rest =>
    simp only [finish, List.isEmpty_iff]
    split <;> simp_all
  | missed here => simp [finish]
  | failed here => simp [finish]

theorem andThen_eq_done {a : Attempt α} {f : α → Excerpt → Attempt β} {value : β} {last : Excerpt} :
    a.andThen f = .done value last ↔ ∃ v rest, a = .done v rest ∧ f v rest = .done value last := by
  cases a <;> simp [andThen]

theorem andThen_cons_eq_done {a : Attempt (List α)} {value : α} {values : List α} {last : Excerpt} :
    (a.andThen fun more rest => .done (value :: more) rest) = .done values last ↔
      ∃ more, a = .done more last ∧ values = value :: more := by
  cases a <;> simp [andThen, eq_comm, and_comm]

theorem many_eq_done {item : Excerpt → Attempt α} (h : ∀ e, (item e).Shortens e) {e last : Excerpt}
    {values : List α} :
    many item h e = .done values last ↔
      ((∃ here, item e = .missed here) ∧ values = [] ∧ last = e) ∨
        ∃ value rest more, item e = .done value rest ∧ many item h rest = .done more last ∧
          values = value :: more := by
  rw [many_eq]
  cases item e with
  | missed here => simp [eq_comm]
  | failed here => simp
  | done value rest => simp [andThen_cons_eq_done]

theorem manySeparated_eq_done {separator : Excerpt → Attempt Unit} {item : Excerpt → Attempt α}
    (hsep : ∀ e, (separator e).Shortens e) (hitem : ∀ e, (item e).Shortens e) {e last : Excerpt}
    {values : List α} :
    manySeparated separator item hsep hitem e = .done values last ↔
      ((∃ here, item e = .missed here) ∧ values = [] ∧ last = e) ∨
        ∃ value rest more, item e = .done value rest ∧
          many (behind separator item) (behind_shortens hsep hitem) rest = .done more last ∧
          values = value :: more := by
  unfold manySeparated
  cases item e with
  | missed here => simp [eq_comm]
  | failed here => simp
  | done value rest => simp [andThen_cons_eq_done]

end Attempt

namespace PlanStep

open Attempt

theorem isMargin_iff {c : Char} : isMargin c = true ↔ c = ' ' ∨ c = '\t' ∨ c = '\r' ∨ c = '\n' := by
  simp [isMargin, or_assoc]

/-- Whether a text holds nothing that belongs to a step. -/
def IsMargin (cs : List Char) : Prop := ∀ c ∈ cs, isMargin c = true

theorem isMargin_append {xs ys : List Char} : IsMargin (xs ++ ys) ↔ IsMargin xs ∧ IsMargin ys :=
  List.forall_mem_append

theorem isMargin_iff_dropWhile {cs : List Char} : IsMargin cs ↔ cs.dropWhile isMargin = [] := by
  rw [List.dropWhile_eq_nil_iff]
  rfl

def AtMargin (cs : List Char) : Prop := ∀ c ∈ cs.head?, isMargin c = true

theorem IsMargin.atMargin {cs : List Char} (h : IsMargin cs) : AtMargin cs :=
  fun c hc => h c (List.mem_of_mem_head? hc)

/-- Whether the step is read in front of `rest`. -/
def Reads (s : PlanStep) (cs rest : List Char) : Prop :=
  ∃ start last, readStep ⟨start, cs⟩ = .done s last ∧ last.chars = rest

variable {s : PlanStep} {cs rest tail : List Char}

theorem reads_chars {e : Excerpt} :
    s.Reads e.chars rest ↔ ∃ last, readStep e = .done s last ∧ last.chars = rest := by
  constructor
  · rintro ⟨start, last, hstep, rfl⟩
    have hfront : Excerpt.SameFront [] [] ⟨start, e.chars⟩ e := ⟨e.chars, by simp, by simp⟩
    obtain ⟨last', hread, cs, hlast, hlast'⟩ :=
      bounded_readStep.of_done atLineEnd_nil atLineEnd_nil hfront hstep
    exact ⟨last', hread, by rw [hlast, hlast']⟩
  · rintro ⟨last, hstep, hlast⟩
    exact ⟨e.start, last, hstep, hlast⟩

/-- What begins with the end of a line has no part in the step in front of it. -/
theorem reads_append (htail : AtLineEnd tail) {left : List Char} :
    s.Reads (cs ++ tail) left ↔ ∃ rest, s.Reads cs rest ∧ left = rest ++ tail := by
  constructor
  · rintro ⟨start, last, hstep, rfl⟩
    have hfront : Excerpt.SameFront tail [] ⟨start, cs ++ tail⟩ ⟨start, cs⟩ := ⟨cs, rfl, by simp⟩
    obtain ⟨last', hread, rest, hlast, hlast'⟩ :=
      bounded_readStep.of_done htail atLineEnd_nil hfront hstep
    exact ⟨rest, ⟨start, last', hread, by simpa using hlast'⟩, hlast⟩
  · rintro ⟨rest, ⟨start, last, hstep, rfl⟩, rfl⟩
    have hfront : Excerpt.SameFront [] tail ⟨start, cs⟩ ⟨start, cs ++ tail⟩ := ⟨cs, by simp, rfl⟩
    obtain ⟨last', hread, rest, hlast, hlast'⟩ :=
      bounded_readStep.of_done atLineEnd_nil htail hfront hstep
    exact ⟨start, last', hread, by rw [hlast', hlast, List.append_nil]⟩

theorem Reads.ne_nil (h : s.Reads cs rest) : cs ≠ [] := by
  rintro rfl
  obtain ⟨start, last, hstep, -⟩ := h
  exact absurd (readStep_shortens _ s last hstep) (by simp)

end PlanStep

namespace Plan

open Attempt PlanStep

/-- Whether a text is these steps, with margins between and around them. -/
inductive Holds : List PlanStep → List Char → Prop
  | nil {cs : List Char} (h : IsMargin cs) : Holds [] cs
  | cons {s : PlanStep} {steps : List PlanStep} {cs rest : List Char}
      (hstep : s.Reads (cs.dropWhile isMargin) rest) (hmargin : AtMargin rest)
      (hrest : Holds steps rest) : Holds (s :: steps) cs

variable {steps first second : List PlanStep} {s : PlanStep} {cs xs ys : List Char} {c : Char}

theorem holds_nil : Holds [] cs ↔ IsMargin cs :=
  ⟨fun h => by cases h; assumption, .nil⟩

theorem holds_singleton : Holds [s] cs ↔ ∃ rest, s.Reads (cs.dropWhile isMargin) rest ∧ IsMargin rest := by
  constructor
  · rintro (_ | ⟨hstep, -, hrest⟩)
    exact ⟨_, hstep, holds_nil.1 hrest⟩
  · rintro ⟨rest, hstep, hrest⟩
    exact .cons hstep hrest.atMargin (.nil hrest)

theorem Holds.ne_nil (h : Holds (s :: steps) cs) : cs.dropWhile isMargin ≠ [] := by
  cases h with
  | cons hstep _ _ => exact hstep.ne_nil

theorem isMargin_of_break (hc : c = '\r' ∨ c = '\n') : isMargin c = true := by
  rcases hc with rfl | rfl <;> rfl

theorem Holds.of_margin (hxs : IsMargin xs) (h : Holds steps ys) : Holds steps (xs ++ ys) := by
  cases h with
  | nil hys => exact .nil (isMargin_append.2 ⟨hxs, hys⟩)
  | cons hstep hmargin hrest =>
    rw [← List.dropWhile_append_of_pos hxs] at hstep
    exact .cons hstep hmargin hrest

theorem Holds.append (hc : c = '\r' ∨ c = '\n') (hfirst : Holds first xs)
    (hsecond : Holds second ys) : Holds (first ++ second) (xs ++ c :: ys) := by
  have hbreak : isMargin c = true := isMargin_of_break hc
  -- the last margin of the first text, the break and the first margin of the second are one margin
  induction hfirst with
  | nil hxs =>
    have hlead : IsMargin [c] := by simpa [IsMargin] using hbreak
    exact (hsecond.of_margin hlead).of_margin hxs
  | @cons s steps xs rest hstep hmargin hrest ih =>
    have hread : s.Reads ((xs ++ c :: ys).dropWhile isMargin) (rest ++ c :: ys) := by
      rw [List.dropWhile_append, if_neg (by simpa using hstep.ne_nil)]
      exact (reads_append (atLineEnd_cons hc ys)).2 ⟨rest, hstep, rfl⟩
    refine .cons hread ?_ ih
    cases rest with
    | nil => simpa [AtMargin] using hbreak
    | cons d rest => simpa [AtMargin] using hmargin

/-- A text can be cut at a line break, and no step is lost: none goes across it. -/
theorem Holds.exists_append (hc : c = '\r' ∨ c = '\n') (h : Holds steps (xs ++ c :: ys)) :
    ∃ first second, steps = first ++ second ∧ Holds first xs ∧ Holds second ys := by
  have hbreak : isMargin c = true := isMargin_of_break hc
  generalize htext : xs ++ c :: ys = cs at h
  induction h generalizing xs with
  | nil hcs =>
    subst htext
    obtain ⟨hxs, hys⟩ := isMargin_append.1 hcs
    exact ⟨[], [], rfl, .nil hxs, .nil fun d hd => hys d (List.mem_cons_of_mem _ hd)⟩
  | @cons s steps cs rest hstep hmargin hrest ih =>
    subst htext
    -- the cut is in front of the first step or behind it
    by_cases hxs : IsMargin xs
    · rw [List.dropWhile_append_of_pos hxs, List.dropWhile_cons_of_pos hbreak] at hstep
      exact ⟨[], s :: steps, rfl, .nil hxs, .cons hstep hmargin hrest⟩
    · rw [List.dropWhile_append, if_neg (by simpa [isMargin_iff_dropWhile] using hxs)] at hstep
      obtain ⟨left, hleft, rfl⟩ := (reads_append (atLineEnd_cons hc ys)).1 hstep
      obtain ⟨first, second, rfl, hfirst, hsecond⟩ := ih rfl
      refine ⟨s :: first, second, rfl, .cons hleft ?_ hfirst, hsecond⟩
      cases left with
      | nil => simp [AtMargin]
      | cons d left => simpa [AtMargin] using hmargin

/-- Lines hold steps if and only if each of them does, row by row. -/
theorem holds_intercalate {lines : List (List Char)} :
    Holds steps (['\n'].intercalate lines) ↔
      ∃ rows, steps = rows.flatten ∧ List.Forall₂ Holds rows lines := by
  induction lines generalizing steps with
  | nil =>
    rw [List.intercalate_nil]
    constructor
    · intro h
      cases steps with
      | nil => exact ⟨[], rfl, .nil⟩
      | cons s steps => exact absurd rfl h.ne_nil
    · rintro ⟨rows, rfl, hrows⟩
      cases hrows
      exact .nil (by simp [IsMargin])
  | cons line lines ih =>
    by_cases hne : lines = []
    · subst hne
      rw [List.intercalate_singleton]
      constructor
      · exact fun h => ⟨[steps], by simp, .cons h .nil⟩
      · rintro ⟨rows, rfl, hrows⟩
        obtain ⟨row, rest, hrow, hrest, rfl⟩ := List.forall₂_cons_right_iff.1 hrows
        cases hrest
        simpa using hrow
    · -- a line feed is a margin, so the text can be cut and joined there
      rw [List.intercalate_cons_of_ne_nil hne, List.append_assoc, List.singleton_append]
      constructor
      · intro h
        obtain ⟨first, second, rfl, hfirst, hsecond⟩ := h.exists_append (Or.inr rfl)
        obtain ⟨rows, rfl, hrows⟩ := ih.1 hsecond
        exact ⟨first :: rows, rfl, .cons hfirst hrows⟩
      · rintro ⟨rows, rfl, hrows⟩
        obtain ⟨row, rest, hrow, hrest, rfl⟩ := List.forall₂_cons_right_iff.1 hrows
        exact hrow.append (Or.inr rfl) (ih.2 ⟨rest, rfl, hrest⟩)

theorem readStep_of_nil {e : Excerpt} (h : e.chars = []) : readStep e = .missed e := by
  obtain ⟨start, cs⟩ := e
  obtain rfl : cs = [] := h
  have htime : readTime ⟨start, []⟩ = .missed ⟨start, []⟩ := rfl
  have hgroup : readGroup ⟨start, []⟩ = .missed ⟨start, []⟩ := rfl
  have hbody : readBody ⟨start, []⟩ = .missed ⟨start, []⟩ := rfl
  simp [readStep, htime, hgroup, hbody, Attempt.optional, Attempt.orElse, Attempt.andThen]

theorem behind_eq_done {e rest : Excerpt} :
    behind (run isMargin) readStep e = .done s rest ↔
      AtMargin e.chars ∧ readStep (e.dropWhile isMargin) = .done s rest := by
  obtain ⟨start, _ | ⟨c, cs⟩⟩ := e
  · have hnil : readStep (Excerpt.dropWhile ⟨start, []⟩ isMargin) = .missed _ := readStep_of_nil rfl
    rw [hnil]
    simp [behind, run, andThen]
  · by_cases hc : isMargin c = true <;> simp [behind, run, andThen, AtMargin, hc]

theorem behind_eq_missed {e : Excerpt} (h : IsMargin e.chars) :
    ∃ here, behind (run isMargin) readStep e = .missed here := by
  have hnil := readStep_of_nil (e := e.dropWhile isMargin) (isMargin_iff_dropWhile.1 h)
  obtain ⟨start, _ | ⟨c, cs⟩⟩ := e
  · exact ⟨⟨start, []⟩, rfl⟩
  · have hc : isMargin c = true := h c List.mem_cons_self
    exact ⟨Excerpt.dropWhile ⟨start, c :: cs⟩ isMargin, by simp [behind, run, andThen, hc, hnil]⟩

theorem holds_cons {e : Excerpt} :
    Holds (s :: steps) e.chars ↔ ∃ rest, readStep (e.dropWhile isMargin) = .done s rest ∧
      AtMargin rest.chars ∧ Holds steps rest.chars := by
  constructor
  · rintro (_ | ⟨hstep, hmargin, hrest⟩)
    obtain ⟨last, hread, rfl⟩ := (reads_chars (e := e.dropWhile isMargin)).1 hstep
    exact ⟨last, hread, hmargin, hrest⟩
  · rintro ⟨rest, hread, hmargin, hrest⟩
    exact .cons ((reads_chars (e := e.dropWhile isMargin)).2 ⟨rest, hread, rfl⟩) hmargin hrest

theorem many_eq_done_iff_holds {e : Excerpt} :
    (∃ last, many (behind (run isMargin) readStep)
        (behind_shortens (run_shortens isMargin) readStep_shortens) e = .done steps last ∧
      IsMargin last.chars) ↔ AtMargin e.chars ∧ Holds steps e.chars := by
  induction steps generalizing e with
  | nil =>
    rw [holds_nil]
    constructor
    · rintro ⟨last, hmany, hlast⟩
      obtain ⟨-, -, rfl⟩ | ⟨_, _, _, -, -, hcons⟩ := (many_eq_done _).1 hmany
      · exact ⟨hlast.atMargin, hlast⟩
      · exact absurd hcons (by simp)
    · rintro ⟨-, hmargin⟩
      exact ⟨e, (many_eq_done _).2 (Or.inl ⟨behind_eq_missed hmargin, rfl, rfl⟩), hmargin⟩
  | cons s steps ih =>
    rw [holds_cons]
    constructor
    · rintro ⟨last, hmany, hlast⟩
      obtain ⟨-, hnil, -⟩ | ⟨s', rest, steps', hstep, hmore, hcons⟩ := (many_eq_done _).1 hmany
      · exact absurd hnil (by simp)
      · obtain ⟨rfl, rfl⟩ := List.cons.inj hcons
        obtain ⟨hmargin, hread⟩ := behind_eq_done.1 hstep
        exact ⟨hmargin, rest, hread, ih.1 ⟨last, hmore, hlast⟩⟩
    · rintro ⟨hmargin, rest, hread, hrest⟩
      obtain ⟨last, hmore, hlast⟩ := ih.2 hrest
      exact ⟨last, many_of_done _ (behind_eq_done.2 ⟨hmargin, hread⟩) hmore, hlast⟩

/-- Reading succeeds on just the texts that hold steps, and gives these. -/
theorem readSteps_eq_ok {e : Excerpt} : (readSteps e).finish = .ok steps ↔ Holds steps e.chars := by
  -- without the margins around the steps
  have hframe : (readSteps e).finish = .ok steps ↔ ∃ last,
      manySeparated (run isMargin) readStep (run_shortens isMargin) readStep_shortens
        (e.dropWhile isMargin) = .done steps last ∧ IsMargin last.chars := by
    simp only [readSteps, finish_eq_ok, andThen_eq_done, isMargin_iff_dropWhile]
    constructor
    · rintro ⟨_, ⟨_, last, hsteps, hdone⟩, hrest⟩
      obtain ⟨rfl, rfl⟩ := done.inj hdone
      exact ⟨last, hsteps, hrest⟩
    · rintro ⟨last, hsteps, hlast⟩
      exact ⟨_, ⟨steps, last, hsteps, rfl⟩, hlast⟩
  rw [hframe]
  cases steps with
  | nil =>
    rw [holds_nil, isMargin_iff_dropWhile]
    constructor
    · rintro ⟨last, hsteps, hlast⟩
      obtain ⟨-, -, rfl⟩ | ⟨_, _, _, -, -, hcons⟩ := (manySeparated_eq_done _ _).1 hsteps
      · have htwice := isMargin_iff_dropWhile.1 hlast
        rwa [Excerpt.chars_dropWhile, List.dropWhile_idempotent] at htwice
      · exact absurd hcons (by simp)
    · intro hnil
      have hmissed := readStep_of_nil (e := e.dropWhile isMargin) hnil
      exact ⟨_, (manySeparated_eq_done _ _).2 (Or.inl ⟨⟨_, hmissed⟩, rfl, rfl⟩), by
        rw [Excerpt.chars_dropWhile, hnil]
        simp [IsMargin]⟩
  | cons s steps =>
    rw [holds_cons]
    constructor
    · rintro ⟨last, hsteps, hlast⟩
      obtain ⟨-, hnil, -⟩ | ⟨s', rest, steps', hstep, hmore, hcons⟩ :=
        (manySeparated_eq_done _ _).1 hsteps
      · exact absurd hnil (by simp)
      · obtain ⟨rfl, rfl⟩ := List.cons.inj hcons
        exact ⟨rest, hstep, many_eq_done_iff_holds.1 ⟨last, hmore, hlast⟩⟩
    · rintro ⟨rest, hread, hrest⟩
      obtain ⟨last, hmore, hlast⟩ := many_eq_done_iff_holds.2 hrest
      exact ⟨last, (manySeparated_eq_done _ _).2 (Or.inr ⟨s, rest, steps, hread, hmore, rfl⟩), hlast⟩

theorem readFramed_eq_ok {e : Excerpt} : (readFramed e).finish = .ok s ↔ Holds [s] e.chars := by
  simp only [holds_cons, holds_nil, readFramed, finish_eq_ok, andThen_eq_done]
  constructor
  · rintro ⟨_, ⟨s', last, hstep, hdone⟩, hrest⟩
    obtain ⟨rfl, rfl⟩ := done.inj hdone
    have hlast : IsMargin last.chars := isMargin_iff_dropWhile.2 hrest
    exact ⟨last, hstep, hlast.atMargin, hlast⟩
  · rintro ⟨last, hstep, -, hlast⟩
    exact ⟨_, ⟨s, last, hstep, rfl⟩, isMargin_iff_dropWhile.1 hlast⟩

theorem ofText_eq_ok {text : String} :
    ofText text = .ok steps ↔ Holds steps (prepareChars text.toList) := by
  rw [ofText, readSteps_eq_ok, Excerpt.ofString, prepare, String.toList_ofList]

theorem ofLine_eq_ok {line : String} :
    PlanStep.ofLine line = .ok s ↔ Holds [s] (prepareChars line.toList) := by
  rw [PlanStep.ofLine, readFramed_eq_ok, Excerpt.ofString, prepare, String.toList_ofList]

end Plan

end Pddl
