import Pddl.Proofs.Number.Leading

namespace Pddl.Number

open Text

def IsSign (cs : List Char) : Prop := cs = [] ∨ cs = ['+'] ∨ cs = ['-']

/-- Digits, with one point in front of them, between them or behind them or with none. -/
def IsMantissa (cs : List Char) : Prop :=
  ∃ whole fraction, (∀ c ∈ whole ++ fraction, c.isDigit = true) ∧ whole ++ fraction ≠ [] ∧
    (cs = whole ++ '.' :: fraction ∨ cs = whole ∧ fraction = [])

def LacksExponent (cs : List Char) : Prop :=
  ∀ sign digit rest, IsSign sign → cs = sign ++ digit :: rest → digit.isDigit = false

/-- Whether a text begins with a number whose exponent mark has no exponent behind it. -/
def Dangles (cs : List Char) : Prop :=
  ∃ sign mantissa mark rest, IsSign sign ∧ IsMantissa mantissa ∧ (mark = 'e' ∨ mark = 'E') ∧
    LacksExponent rest ∧ cs = sign ++ (mantissa ++ mark :: rest)

variable {cs sign mantissa rest : List Char}

theorem exists_sign (cs : List Char) : ∃ sign, IsSign sign ∧ cs = sign ++ (takeSign cs).2 := by
  unfold takeSign
  split
  · exact ⟨['-'], Or.inr (Or.inr rfl), rfl⟩
  · exact ⟨['+'], Or.inr (Or.inl rfl), rfl⟩
  · exact ⟨[], Or.inl rfl, rfl⟩

theorem takeSign_of_isSign (hsign : IsSign sign) (hrest : Stops (fun c => c = '+' || c = '-') rest) :
    (takeSign (sign ++ rest)).2 = rest := by
  rcases hsign with rfl | rfl | rfl
  · rw [List.nil_append]
    unfold takeSign
    split
    · exact absurd (hrest '-' rfl) (by decide)
    · exact absurd (hrest '+' rfl) (by decide)
    · rfl
  · rfl
  · rfl

theorem takeDigits_eq_nil : (takeDigits cs).1 = [] ↔ Stops Char.isDigit cs := by
  cases cs with
  | nil => simp [takeDigits, stops_nil]
  | cons c cs => by_cases hc : c.isDigit = true <;> simp [takeDigits, Stops, hc]

theorem lacksExponent_iff : LacksExponent rest ↔ Stops Char.isDigit (takeSign rest).2 := by
  constructor
  · intro h c hc
    obtain ⟨sign, hsign, hrest⟩ := exists_sign rest
    obtain ⟨tail, htail⟩ := List.head?_eq_some_iff.1 (Option.mem_def.1 hc)
    exact h sign c tail hsign (htail ▸ hrest)
  · rintro h sign digit tail hsign rfl
    by_contra hdigit
    have hnosign : (digit = '+' || digit = '-') = false := by
      rw [Bool.or_eq_false_iff]
      constructor <;> exact decide_eq_false (by rintro rfl; exact hdigit (by decide))
    rw [takeSign_of_isSign hsign (stops_cons hnosign tail)] at h
    exact hdigit (h digit rfl)

theorem takeExponent_eq_none :
    takeExponent cs = none ↔ ∃ mark rest, (mark = 'e' ∨ mark = 'E') ∧ LacksExponent rest ∧
      cs = mark :: rest := by
  cases cs with
  | nil => simp [takeExponent]
  | cons c cs =>
    have hmark : takeExponent (c :: cs) = none ↔
        (c = 'e' ∨ c = 'E') ∧ (takeDigits (takeSign cs).2).1 = [] := by
      by_cases hc : c = 'e' ∨ c = 'E'
      · simp only [takeExponent, Bool.or_eq_true, decide_eq_true_eq, hc, if_true, true_and]
        generalize takeDigits (takeSign cs).2 = digits
        obtain ⟨_ | ⟨d, ds⟩, left⟩ := digits <;> simp
      · simp [takeExponent, hc]
    rw [hmark, takeDigits_eq_nil, ← lacksExponent_iff]
    constructor
    · rintro ⟨hc, hrest⟩
      exact ⟨c, cs, hc, hrest, rfl⟩
    · rintro ⟨mark, rest, hmark, hrest, heq⟩
      obtain ⟨rfl, rfl⟩ := List.cons.inj heq
      exact ⟨hmark, hrest⟩

theorem isDigit_of_mem_takeDigits : ∀ c ∈ (takeDigits cs).1, c.isDigit = true :=
  fun _ hc => List.mem_takeWhile_imp hc

theorem takeDigits_append_snd (cs : List Char) : (takeDigits cs).1 ++ (takeDigits cs).2 = cs :=
  List.takeWhile_append_dropWhile

theorem takeDigits_run (hrest : Stops Char.isDigit rest) (hcs : ∀ c ∈ cs, c.isDigit = true) :
    takeDigits (cs ++ rest) = (cs, rest) :=
  Prod.ext (hrest.takeWhile_run hcs) (hrest.dropWhile_run hcs)

theorem takeMantissa_of_point {whole tail : List Char} (h : takeDigits cs = (whole, '.' :: tail)) :
    takeMantissa cs = if whole ++ (takeDigits tail).1 = [] then none else
      some (whole, (takeDigits tail).1, (takeDigits tail).2) := by
  rw [takeMantissa, h]
  cases whole with
  | nil =>
    simp only [List.nil_append]
    generalize takeDigits tail = digits
    obtain ⟨_ | ⟨d, ds⟩, left⟩ := digits <;> simp
  | cons d whole => simp

theorem takeMantissa_of_stops {whole left : List Char} (h : takeDigits cs = (whole, left))
    (hleft : Stops (· = '.') left) :
    takeMantissa cs = if whole = [] then none else some (whole, [], left) := by
  have hpoint : ∀ tail, left ≠ '.' :: tail := by
    rintro tail rfl
    exact absurd (hleft '.' rfl) (by decide)
  rw [takeMantissa, h]
  cases whole with
  | nil => simp
  | cons d whole => simp

theorem exists_mantissa {whole fraction : List Char}
    (h : takeMantissa cs = some (whole, fraction, rest)) :
    ∃ mantissa, IsMantissa mantissa ∧ cs = mantissa ++ rest := by
  have hdigits : ∀ c ∈ (takeDigits cs).1, c.isDigit = true := isDigit_of_mem_takeDigits
  have hcs := takeDigits_append_snd cs
  generalize hrun : takeDigits cs = digits at hdigits hcs
  obtain ⟨run, left⟩ := digits
  -- a point behind the first digits begins a fraction, which may be empty
  by_cases hleft : Stops (· = '.') left
  · rw [takeMantissa_of_stops hrun hleft] at h
    split at h
    · simp at h
    · rename_i hne
      obtain ⟨rfl, rfl, rfl⟩ : run = whole ∧ [] = fraction ∧ left = rest := by simpa using h
      exact ⟨run, ⟨run, [], by simpa using hdigits, by simpa using hne, Or.inr ⟨rfl, rfl⟩⟩, hcs.symm⟩
  · obtain ⟨tail, rfl⟩ : ∃ tail, left = '.' :: tail := by
      cases left with
      | nil => exact absurd (stops_nil _) hleft
      | cons c left =>
        obtain rfl : c = '.' := by simpa [Stops] using hleft
        exact ⟨left, rfl⟩
    rw [takeMantissa_of_point hrun] at h
    split at h
    · simp at h
    · rename_i hne
      have htail := takeDigits_append_snd tail
      obtain ⟨rfl, rfl, rfl⟩ :
          run = whole ∧ (takeDigits tail).1 = fraction ∧ (takeDigits tail).2 = rest := by
        simpa only [Option.some.injEq, Prod.mk.injEq] using h
      refine ⟨run ++ '.' :: (takeDigits tail).1, ⟨run, _, ?_, hne, Or.inl rfl⟩, ?_⟩
      · exact List.forall_mem_append.2 ⟨hdigits, isDigit_of_mem_takeDigits⟩
      · rw [List.append_assoc, List.cons_append, htail, hcs]

theorem takeMantissa_of_isMantissa (h : IsMantissa mantissa)
    (hrest : Stops (fun c => c.isDigit || c = '.') rest) :
    ∃ whole fraction, takeMantissa (mantissa ++ rest) = some (whole, fraction, rest) := by
  have hdigit : Stops Char.isDigit rest := hrest.mono fun c hc => (Bool.or_eq_false_iff.1 hc).1
  have hpoint : Stops (· = '.') rest := hrest.mono fun c hc => (Bool.or_eq_false_iff.1 hc).2
  obtain ⟨whole, fraction, hdigits, hne, rfl | ⟨rfl, rfl⟩⟩ := h
  · obtain ⟨hwhole, hfraction⟩ := List.forall_mem_append.1 hdigits
    have htake : takeDigits (whole ++ '.' :: fraction ++ rest) = (whole, '.' :: (fraction ++ rest)) := by
      rw [List.append_assoc]
      exact takeDigits_run (stops_cons (by decide) _) hwhole
    rw [takeMantissa_of_point htake, takeDigits_run hdigit hfraction, if_neg hne]
    exact ⟨whole, fraction, rfl⟩
  · rw [List.append_nil] at hdigits hne
    rw [takeMantissa_of_stops (takeDigits_run hdigit hdigits) hpoint, if_neg hne]
    exact ⟨mantissa, [], rfl⟩

theorem IsMantissa.stops_sign (h : IsMantissa mantissa) (rest : List Char) :
    Stops (fun c => c = '+' || c = '-') (mantissa ++ rest) := by
  have hdigit : ∀ c : Char, c.isDigit = true → (c = '+' || c = '-') = false := by
    intro c hc
    rw [Bool.or_eq_false_iff]
    constructor <;> exact decide_eq_false (by rintro rfl; exact absurd hc (by decide))
  obtain ⟨_ | ⟨c, whole⟩, fraction, hdigits, hne, rfl | ⟨rfl, rfl⟩⟩ := h
  · exact stops_cons (by decide) _
  · exact absurd rfl hne
  · exact stops_cons (hdigit c (hdigits c (by simp))) _
  · exact stops_cons (hdigit c (hdigits c (by simp))) _

/-- A reader of numbers gives up on just the texts that dangle. -/
theorem leading_eq_unfinished : leading cs = .unfinished ↔ Dangles cs := by
  -- only a missing exponent makes a reader give up
  have hparts : leading cs = .unfinished ↔ ∃ whole fraction rest,
      takeMantissa (takeSign cs).2 = some (whole, fraction, rest) ∧ takeExponent rest = none := by
    simp only [leading]
    cases takeMantissa (takeSign cs).2 with
    | none =>
      simp only [reduceCtorEq, false_and, exists_false, iff_false]
      split
      · simp
      · split <;> simp
    | some mantissa =>
      obtain ⟨whole, fraction, rest⟩ := mantissa
      dsimp only
      cases hexponent : takeExponent rest with
      | none => exact ⟨fun _ => ⟨whole, fraction, rest, rfl, hexponent⟩, fun _ => rfl⟩
      | some exponent => simp [hexponent]
  rw [hparts]
  constructor
  · rintro ⟨whole, fraction, rest, hmantissa, hexponent⟩
    obtain ⟨sign, hsign, hcs⟩ := exists_sign cs
    obtain ⟨mantissa, hm, hunsigned⟩ := exists_mantissa hmantissa
    obtain ⟨mark, tail, hmark, hlacks, rfl⟩ := takeExponent_eq_none.1 hexponent
    exact ⟨sign, mantissa, mark, tail, hsign, hm, hmark, hlacks, hunsigned ▸ hcs⟩
  · rintro ⟨sign, mantissa, mark, tail, hsign, hm, hmark, hlacks, rfl⟩
    have hstop : Stops (fun c => c.isDigit || c = '.') (mark :: tail) :=
      stops_cons (by rcases hmark with rfl | rfl <;> decide) tail
    obtain ⟨whole, fraction, hmantissa⟩ := takeMantissa_of_isMantissa hm hstop
    refine ⟨whole, fraction, mark :: tail, ?_, takeExponent_eq_none.2 ⟨mark, tail, hmark, hlacks, rfl⟩⟩
    rw [takeSign_of_isSign hsign (hm.stops_sign _), hmantissa]

instance (cs : List Char) : Decidable (Dangles cs) :=
  decidable_of_iff _ leading_eq_unfinished

theorem not_dangles_nil : ¬Dangles [] := by decide

theorem dangles_append (h : Stops isMark rest) : Dangles (cs ++ rest) ↔ Dangles cs := by
  rw [← leading_eq_unfinished, ← leading_eq_unfinished, leading_append h]
  cases leading cs <;> simp [Leading.extend]

end Pddl.Number
