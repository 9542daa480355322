import Pddl.Proofs.Text.Lines
import Pddl.Proofs.Tree.Places

namespace Pddl.Text

/-- The forms that lowercase has for a character; a capital sigma has two of them. -/
def IsForm (c : Char) (form : List Char) : Prop :=
  if c = 'Σ' then form = ['σ'] ∨ form = ['ς'] else form = lowerChar c

theorem count_dotted_cons (c : Char) (cs : List Char) :
    (c :: cs).count 'İ' = [c].count 'İ' + cs.count 'İ' := by
  rw [← List.count_append, List.singleton_append]

theorem length_lowerChar (c : Char) : (lowerChar c).length = 1 + [c].count 'İ' := by
  by_cases hc : c = 'İ'
  · subst hc
    rfl
  · have hdot : c.toNat ≠ 0x130 := fun h => hc (Char.toNat_inj.1 h)
    rw [List.count_singleton, if_neg (by simpa using hc), lowerChar, if_neg hdot]
    split
    · rfl
    · split <;> rfl

theorem IsForm.length {c : Char} {form : List Char} (h : IsForm c form) :
    form.length = 1 + [c].count 'İ' := by
  unfold IsForm at h
  split at h
  · rename_i hc
    subst hc
    rcases h with rfl | rfl <;> rfl
  · rw [h, length_lowerChar]

theorem exists_form (before : List Char) (c : Char) (cs : List Char) :
    ∃ form, lowerAfter before (c :: cs) = form ++ lowerAfter (c :: before) cs ∧ IsForm c form := by
  refine ⟨_, rfl, ?_⟩
  unfold IsForm
  by_cases hc : c = 'Σ'
  · rw [if_pos hc, if_pos hc]
    split
    · exact Or.inr rfl
    · exact Or.inl rfl
  · rw [if_neg hc, if_neg hc]

theorem length_lowerAfter (before cs : List Char) :
    (lowerAfter before cs).length = cs.length + cs.count 'İ' := by
  induction cs generalizing before with
  | nil => rfl
  | cons c cs ih =>
    obtain ⟨form, heq, hform⟩ := exists_form before c cs
    rw [heq, List.length_append, ih, hform.length, List.length_cons, count_dotted_cons c cs]
    omega

theorem exists_lowerAfter_append (before xs ys : List Char) :
    ∃ front, lowerAfter before (xs ++ ys) = front ++ lowerAfter (xs.reverse ++ before) ys := by
  induction xs generalizing before with
  | nil => exact ⟨[], rfl⟩
  | cons x xs ih =>
    obtain ⟨form, heq, -⟩ := exists_form before x (xs ++ ys)
    obtain ⟨front, hfront⟩ := ih (x :: before)
    exact ⟨form ++ front, by simp [heq, hfront]⟩

/-- Where lowercase puts a character: behind as many characters as there were, and one more for each
dotted capital I among them. -/
theorem exists_lower_append_cons (before : List Char) (c : Char) (after : List Char) :
    ∃ front form back, lower (before ++ c :: after) = front ++ (form ++ back) ∧ IsForm c form ∧
      front.length = before.length + before.count 'İ' := by
  obtain ⟨front, hfront⟩ := exists_lowerAfter_append [] before (c :: after)
  obtain ⟨form, hcons, hform⟩ := exists_form (before.reverse ++ []) c after
  refine ⟨front, form, _, by rw [lower, hfront, hcons], hform, ?_⟩
  -- what is in front is what is left when the end is taken away from the whole
  have htotal := congrArg List.length hfront
  simp only [length_lowerAfter, List.length_append, List.count_append] at htotal
  omega

/-- A column of a text in lowercase is one of the text itself, or stands within the two characters
of a dotted capital I. -/
theorem exists_append_of_le {cs : List Char} {n : Nat} (h : n ≤ cs.length + cs.count 'İ') :
    ∃ read left, cs = read ++ left ∧ (n = read.length + read.count 'İ' ∨
      left.head? = some 'İ' ∧ n = read.length + read.count 'İ' + 1) := by
  induction cs generalizing n with
  | nil => exact ⟨[], [], rfl, Or.inl (by simpa using h)⟩
  | cons c cs ih =>
    rw [List.length_cons, count_dotted_cons] at h
    -- the first character has one column in the lowered text, or two
    by_cases hn : n < 1 + [c].count 'İ'
    · refine ⟨[], c :: cs, rfl, ?_⟩
      rcases Nat.eq_zero_or_pos n with rfl | hpos
      · exact Or.inl rfl
      · have hdot : 'İ' ∈ [c] := List.count_pos_iff.1 (by omega)
        have hle : [c].count 'İ' ≤ [c].length := List.count_le_length
        rw [List.length_singleton] at hle
        exact Or.inr ⟨by rw [List.mem_singleton.1 hdot]; rfl, by simp; omega⟩
    · have hle : n - (1 + [c].count 'İ') ≤ cs.length + cs.count 'İ' := by omega
      obtain ⟨read, left, rfl, hsplit⟩ := ih hle
      refine ⟨c :: read, left, rfl, ?_⟩
      rw [List.length_cons, count_dotted_cons c read]
      rcases hsplit with hsplit | ⟨hleft, hsplit⟩
      · exact Or.inl (by omega)
      · exact Or.inr ⟨hleft, by omega⟩

/-- Whether what follows `before` stands between a bracket and the next closing bracket. -/
def InBrackets (before : List Char) : Prop :=
  ∃ front behind, before = front ++ '[' :: behind ∧ ']' ∉ behind

/-- A line up to its first semicolon outside brackets. -/
structure IsCut (line kept : List Char) : Prop where
  rest : ∃ rest, line = kept ++ rest ∧ ∀ c ∈ rest.head?, c = ';' ∧ ¬InBrackets kept
  inside : ∀ before after, kept = before ++ ';' :: after → InBrackets before

theorem not_inBrackets_nil : ¬InBrackets [] := by
  simp [InBrackets]

theorem inBrackets_append_singleton (before : List Char) (c : Char) :
    InBrackets (before ++ [c]) ↔ c = '[' ∨ c ≠ ']' ∧ InBrackets before := by
  constructor
  · rintro ⟨front, behind, heq, hbehind⟩
    induction behind using List.reverseRecOn with
    | nil =>
      obtain ⟨-, hc⟩ := List.append_inj' heq rfl
      exact Or.inl (List.singleton_inj.1 hc)
    | append_singleton behind d _ =>
      rw [← List.cons_append, ← List.append_assoc] at heq
      obtain ⟨hbefore, hc⟩ := List.append_inj' heq rfl
      rw [List.singleton_inj] at hc
      subst hc
      simp only [List.mem_append, List.mem_singleton, not_or] at hbehind
      exact Or.inr ⟨Ne.symm hbehind.2, front, behind, hbefore, hbehind.1⟩
  · rintro (rfl | ⟨hc, front, behind, rfl, hbehind⟩)
    · exact ⟨before, [], rfl, List.not_mem_nil⟩
    · exact ⟨front, behind ++ [c], by simp, by simp [hbehind, Ne.symm hc]⟩

structure IsCutBehind (before cs kept : List Char) : Prop where
  rest : ∃ rest, cs = kept ++ rest ∧ ∀ c ∈ rest.head?, c = ';' ∧ ¬InBrackets (before ++ kept)
  inside : ∀ front after, kept = front ++ ';' :: after → InBrackets (before ++ front)

theorem isCut_iff_behind {line kept : List Char} : IsCut line kept ↔ IsCutBehind [] line kept :=
  ⟨fun h => ⟨h.rest, h.inside⟩, fun h => ⟨h.rest, h.inside⟩⟩

theorem IsCutBehind.cons {before cs kept : List Char} {c : Char}
    (h : IsCutBehind (before ++ [c]) cs kept) (hc : c = ';' → InBrackets before) :
    IsCutBehind before (c :: cs) (c :: kept) where
  rest := by
    obtain ⟨rest, hrest, hstop⟩ := h.rest
    refine ⟨rest, congrArg (c :: ·) hrest, ?_⟩
    simpa only [List.append_assoc, List.singleton_append] using hstop
  inside front after heq := by
    cases front with
    | nil =>
      rw [List.append_nil]
      exact hc (List.head_eq_of_cons_eq heq)
    | cons d front =>
      obtain ⟨rfl, htail⟩ := List.cons.inj heq
      simpa only [List.append_assoc, List.singleton_append] using h.inside front after htail

/-- The flag of the scan tells whether it stands between brackets, so it stops where a comment
begins. -/
theorem isCutBehind_cutComment {inside : Bool} {before : List Char}
    (hinside : inside = true ↔ InBrackets before) (cs : List Char) :
    IsCutBehind before cs (cutComment inside cs) := by
  induction cs generalizing inside before with
  | nil => exact ⟨⟨[], rfl, by simp⟩, by simp [cutComment]⟩
  | cons c cs ih =>
    unfold cutComment
    split
    · rename_i hc
      exact (ih (by simp [inBrackets_append_singleton, hc])).cons (by simp [hc])
    · rename_i hopen
      split
      · rename_i hc
        exact (ih (by simp [inBrackets_append_singleton, hc])).cons (by simp [hc])
      · rename_i hclose
        split
        · rename_i hcut
          simp only [Bool.and_eq_true, decide_eq_true_eq, Bool.not_eq_true'] at hcut
          refine ⟨⟨c :: cs, rfl, fun d hd => ⟨?_, ?_⟩⟩, by simp⟩
          · rw [← Option.mem_some.1 hd, hcut.1]
          · rw [List.append_nil, ← hinside, hcut.2]
            exact Bool.false_ne_true
        · rename_i hcut
          refine (ih ?_).cons fun hc => hinside.1 (by simpa [hc] using hcut)
          simp [inBrackets_append_singleton, hopen, hclose, hinside]

theorem isCut_cutComment (line : List Char) : IsCut line (cutComment false line) :=
  isCut_iff_behind.2 <| isCutBehind_cutComment
    (iff_of_false Bool.false_ne_true not_inBrackets_nil) line

theorem lineInduction {motive : List Char → Prop} (last : ∀ l, '\n' ∉ l → motive l)
    (cons : ∀ l rest, '\n' ∉ l → motive rest → motive (l ++ '\n' :: rest)) (cs : List Char) :
    motive cs := by
  by_cases h : '\n' ∈ cs
  · obtain ⟨l, rest, hcs, hl⟩ := List.eq_append_cons_of_mem h
    have hlt : rest.length < cs.length := by
      rw [hcs, List.length_append, List.length_cons]
      omega
    rw [hcs]
    exact cons l rest hl (lineInduction last cons rest)
  · exact last cs h
termination_by cs.length

/-- What stands on the last line of a text. -/
def lastLine (cs : List Char) : List Char := (cs.reverse.takeWhile (· ≠ '\n')).reverse

theorem lastLine_of_not_mem {l : List Char} (h : '\n' ∉ l) : lastLine l = l := by
  rw [lastLine, List.takeWhile_eq_self_iff.2 (by simpa using fun c hc => by rintro rfl; exact h hc),
    List.reverse_reverse]

theorem lastLine_append_newline (l cs : List Char) : lastLine (l ++ '\n' :: cs) = lastLine cs := by
  have hstops : Stops (· ≠ '\n') ('\n' :: l.reverse) := stops_cons (by decide) _
  simp only [lastLine, List.reverse_append, List.reverse_cons, List.append_assoc,
    List.singleton_append]
  rw [hstops.takeWhile_append]

theorem getElem?_splitOn_append (before after : List Char) :
    ((before ++ after).splitOn '\n')[before.count '\n']? =
      some (lastLine before ++ after.takeWhile (· ≠ '\n')) := by
  induction before using lineInduction with
  | last l hl =>
    rw [List.count_eq_zero.2 hl, lastLine_of_not_mem hl]
    induction after using lineInduction with
    | last m hm =>
      have hall : m.takeWhile (· ≠ '\n') = m :=
        List.takeWhile_eq_self_iff.2 (by simpa using fun c hc => by rintro rfl; exact hm hc)
      rw [hall, List.splitOn_eq_singleton (by simp [hl, hm])]
      rfl
    | cons m rest hm _ =>
      have hstops : Stops (· ≠ '\n') ('\n' :: rest) := stops_cons (by decide) _
      rw [hstops.takeWhile_run (by simpa using fun c hc => by rintro rfl; exact hm hc),
        ← List.append_assoc, List.splitOn_append_cons_self_of_not_mem (by simp [hl, hm])]
      rfl
  | cons l rest hl ih =>
    rw [List.append_assoc, List.cons_append, List.splitOn_append_cons_self_of_not_mem hl,
      List.count_append, List.count_eq_zero.2 hl, List.count_cons_self, Nat.zero_add,
      List.getElem?_cons_succ, ih, lastLine_append_newline]

theorem exists_append_of_getElem?_splitOn {cs xs ys : List Char} {i : Nat}
    (h : (cs.splitOn '\n')[i]? = some (xs ++ ys)) :
    ∃ before after, cs = before ++ after ∧ before.count '\n' = i ∧ lastLine before = xs ∧
      ys <+: after := by
  induction cs using lineInduction generalizing i with
  | last l hl =>
    rw [List.splitOn_eq_singleton hl] at h
    cases i with
    | zero =>
      obtain rfl : l = xs ++ ys := by simpa using h
      have hxs : '\n' ∉ xs := fun hmem => hl (List.mem_append_left _ hmem)
      exact ⟨xs, ys, rfl, List.count_eq_zero.2 hxs, lastLine_of_not_mem hxs, List.prefix_refl _⟩
    | succ i => simp at h
  | cons l rest hl ih =>
    rw [List.splitOn_append_cons_self_of_not_mem hl] at h
    cases i with
    | zero =>
      obtain rfl : l = xs ++ ys := by simpa using h
      have hxs : '\n' ∉ xs := fun hmem => hl (List.mem_append_left _ hmem)
      exact ⟨xs, ys ++ '\n' :: rest, List.append_assoc .., List.count_eq_zero.2 hxs,
        lastLine_of_not_mem hxs, List.prefix_append _ _⟩
    | succ i =>
      obtain ⟨before, after, rfl, hline, hlast, hys⟩ := ih (i := i) (by simpa using h)
      -- one more line in front moves the cut to the next line and leaves its column
      refine ⟨l ++ '\n' :: before, after, by simp, ?_, ?_, hys⟩
      · simp [List.count_eq_zero.2 hl, hline]
      · rw [lastLine_append_newline, hlast]

theorem not_mem_prepareLine {l : List Char} (h : '\n' ∉ l) : '\n' ∉ prepareLine l := by
  obtain ⟨⟨rest, hrest, -⟩, -⟩ := isCut_cutComment l
  have hkept : ∀ c ∈ cutComment false l, c ≠ '\n' := by
    rintro c hc rfl
    rw [hrest] at h
    exact h (List.mem_append_left _ hc)
  have hform : ∀ c, IsLetterForm c → c ≠ '\n' := by
    rintro c hc rfl
    exact absurd hc (by decide)
  exact fun hmem => forall_mem_lowerAfter hform hkept _ hmem rfl

theorem isFront_dropReturn (l : List Char) : dropReturn l <+: l := by
  unfold dropReturn
  split
  · exact List.dropLast_prefix l
  · exact List.prefix_refl l

theorem exists_append_of_prepareLine {line xs ys : List Char} (h : prepareLine line = xs ++ ys) :
    ∃ read left, line = read ++ left ∧ (xs.length = read.length + read.count 'İ' ∨
      left.head? = some 'İ' ∧ xs.length = read.length + read.count 'İ' + 1) := by
  obtain ⟨⟨rest, hrest, -⟩, -⟩ := isCut_cutComment line
  have hlength := congrArg List.length h
  rw [prepareLine, lower, length_lowerAfter, List.length_append] at hlength
  have hle : xs.length ≤ (cutComment false line).length + (cutComment false line).count 'İ' := by
    omega
  obtain ⟨read, left, hkept, hplace⟩ := exists_append_of_le hle
  refine ⟨read, left ++ rest, by rw [hrest, hkept, List.append_assoc], ?_⟩
  exact hplace.imp_right (And.imp_left fun hleft => by rw [List.head?_append, hleft]; rfl)

theorem prepareChars_append_newline {l : List Char} (h : '\n' ∉ l) (rest : List Char) :
    prepareChars (l ++ '\n' :: rest) =
      prepareLine (dropReturn l) ++ if rest = [] then [] else '\n' :: prepareChars rest := by
  rw [prepareChars, lines_append_newline h, List.map_cons]
  split
  · rename_i hrest
    subst hrest
    simp [lines, linesFrom]
  · rename_i hrest
    have hne : lines rest ≠ [] := linesFrom_ne_nil (Or.inr hrest)
    rw [List.intercalate_cons_of_ne_nil (by simpa using hne), List.append_assoc]
    rfl

/-- The lines of a prepared text: an empty last line is lost, and all the others are there. -/
theorem splitOn_prepareChars (cs : List Char) :
    (((prepareChars cs).splitOn '\n').length = (cs.splitOn '\n').length ∨
      ((prepareChars cs).splitOn '\n').length + 1 = (cs.splitOn '\n').length ∧
        (cs.splitOn '\n').getLast? = some []) ∧
    ∀ i result, ((prepareChars cs).splitOn '\n')[i]? = some result →
      ∃ line, (cs.splitOn '\n')[i]? = some line ∧
        result = prepareLine (if i + 1 < (cs.splitOn '\n').length then dropReturn line else line) := by
  induction cs using lineInduction with
  | last l hl =>
    rw [prepareChars_of_not_mem hl, List.splitOn_eq_singleton (not_mem_prepareLine hl),
      List.splitOn_eq_singleton hl]
    refine ⟨Or.inl rfl, fun i result h => ?_⟩
    cases i with
    | zero => exact ⟨l, rfl, by simpa using h.symm⟩
    | succ i => simp at h
  | cons l rest hl ih =>
    have hfirst : '\n' ∉ prepareLine (dropReturn l) :=
      not_mem_prepareLine fun hmem => hl ((isFront_dropReturn l).subset hmem)
    rw [prepareChars_append_newline hl, List.splitOn_append_cons_self_of_not_mem hl]
    split
    · rename_i hrest
      -- nothing behind the line feed: this is the empty last line that is lost
      subst hrest
      rw [List.append_nil, List.splitOn_eq_singleton hfirst]
      refine ⟨Or.inr ⟨rfl, rfl⟩, fun i result h => ?_⟩
      cases i with
      | zero => exact ⟨l, rfl, by simpa using h.symm⟩
      | succ i => simp at h
    · rw [List.splitOn_append_cons_self_of_not_mem hfirst]
      obtain ⟨hlength, hlines⟩ := ih
      refine ⟨?_, fun i result h => ?_⟩
      · simp only [List.length_cons]
        rcases hlength with hlength | ⟨hlength, hlast⟩
        · exact Or.inl (by omega)
        · exact Or.inr ⟨by omega, by rw [List.getLast?_cons, hlast]; rfl⟩
      · cases i with
        | zero =>
          have hpos : 0 < (rest.splitOn '\n').length :=
            List.length_pos_iff.2 (List.splitOn_ne_nil _ _)
          refine ⟨l, rfl, ?_⟩
          rw [if_pos (by rw [List.length_cons]; omega)]
          simpa using h.symm
        | succ i =>
          obtain ⟨line, hline, rfl⟩ := hlines i result (by simpa using h)
          exact ⟨line, by simpa using hline, by simp⟩

theorem column_skip (before : List Char) :
    (Position.origin.skip before).column = 1 + (lastLine before).length := by
  rw [(Position.isBehind_skip before).column, lastLine, List.length_reverse]

/-- Preparation keeps lines, and columns up to the dotted capital I. The result has the lines of the
text, except that an empty last one is lost. Each is cut exactly where its comment begins or its line
break, and consists of the forms of the characters in front; a character is moved by as many columns
as there are dotted capital Is in front of it on its line. So every place of the result is on the
same line of the text, and in the same column where no such letter precedes it. -/
theorem prepare_places (s : String) :
    (((prepare s).toList.splitOn '\n').length = (s.toList.splitOn '\n').length ∨
      ((prepare s).toList.splitOn '\n').length + 1 = (s.toList.splitOn '\n').length ∧
        (s.toList.splitOn '\n').getLast? = some []) ∧
    (∀ i result, ((prepare s).toList.splitOn '\n')[i]? = some result →
      ∃ line kept, (s.toList.splitOn '\n')[i]? = some line ∧
        IsCut (if i + 1 < (s.toList.splitOn '\n').length then dropReturn line else line) kept ∧
        result.length = kept.length + kept.count 'İ' ∧
        ∀ before c after, kept = before ++ c :: after →
          ∃ front form back, result = front ++ (form ++ back) ∧ IsForm c form ∧
            front.length = before.length + before.count 'İ') ∧
    ∀ before after, (prepare s).toList = before ++ after →
      ∃ front back, s.toList = front ++ back ∧
        (Position.origin.skip before).line = (Position.origin.skip front).line ∧
        ((Position.origin.skip before).column =
            (Position.origin.skip front).column + (lastLine front).count 'İ' ∨
          back.head? = some 'İ' ∧ (Position.origin.skip before).column =
            (Position.origin.skip front).column + (lastLine front).count 'İ' + 1) := by
  have hchars : (prepare s).toList = prepareChars s.toList := String.toList_ofList
  obtain ⟨hlength, hlines⟩ := splitOn_prepareChars s.toList
  rw [hchars]
  refine ⟨hlength, fun i result h => ?_, fun before after h => ?_⟩
  · obtain ⟨line, hline, rfl⟩ := hlines i result h
    refine ⟨line, _, hline, isCut_cutComment _, length_lowerAfter [] _, fun before c after hkept => ?_⟩
    rw [prepareLine, hkept]
    exact exists_lower_append_cons before c after
  · have hresult := getElem?_splitOn_append before after
    rw [← h] at hresult
    obtain ⟨line, hline, hlow⟩ := hlines _ _ hresult
    -- the line is cut where the place stands in its prepared form, and the text is cut with it
    obtain ⟨read, left, hcut, hcolumn⟩ := exists_append_of_prepareLine hlow.symm
    obtain ⟨rest, hrest⟩ : (if before.count '\n' + 1 < (s.toList.splitOn '\n').length
        then dropReturn line else line) <+: line := by
      split
      · exact isFront_dropReturn line
      · exact List.prefix_refl line
    rw [← hrest, hcut, List.append_assoc] at hline
    obtain ⟨front, back, hfront, hline, hread, hback⟩ := exists_append_of_getElem?_splitOn hline
    refine ⟨front, back, hfront, ?_, ?_⟩
    · rw [(Position.isBehind_skip before).line, (Position.isBehind_skip front).line, hline]
    · rw [column_skip, column_skip, hread]
      rcases hcolumn with hcolumn | ⟨hleft, hcolumn⟩
      · exact Or.inl (by omega)
      · refine Or.inr ⟨?_, by omega⟩
        obtain ⟨behind, rfl⟩ := hback
        rw [List.append_assoc, List.head?_append, hleft]
        rfl

def marked : String := "(a) [B; C] ; d\r\n(İ E)"

theorem prepare_places_marked :
    ∃ line kept, (marked.toList.splitOn '\n')[1]? = some line ∧ IsCut line kept ∧
      kept.length + kept.count 'İ' = 6 := by
  obtain ⟨-, hlines, -⟩ := prepare_places marked
  have hresult : ((prepare marked).toList.splitOn '\n')[1]? =
      some ['(', 'i', '\u0307', ' ', 'e', ')'] := by
    decide +kernel
  obtain ⟨line, kept, hline, hcut, hlength, -⟩ := hlines _ _ hresult
  have hlast : (marked.toList.splitOn '\n').length = 2 := by
    decide +kernel
  rw [hlast, if_neg (by decide)] at hcut
  exact ⟨line, kept, hline, hcut, hlength.symm⟩

/-- The letter that moves what follows it: in the result the word has a third character, and the
text has none in its place. -/
theorem not_prepare_places_dotted :
    ¬∀ (i : Nat) (result : List Char), ((prepare "İx").toList.splitOn '\n')[i]? = some result →
      ∃ cs, ("İx".toList.splitOn '\n')[i]? = some cs ∧
        ∀ (j : Nat) (d : Char), result[j]? = some d →
          ∃ c form, cs[j]? = some c ∧ IsForm c form ∧ d ∈ form := by
  intro h
  have hresult : ((prepare "İx").toList.splitOn '\n')[0]? = some ['i', '\u0307', 'x'] := by
    decide +kernel
  have htext : ("İx".toList.splitOn '\n')[0]? = some ['İ', 'x'] := by
    decide +kernel
  obtain ⟨cs, hcs, hplaces⟩ := h 0 _ hresult
  rw [htext, Option.some.injEq] at hcs
  subst hcs
  obtain ⟨c, -, hc, -, -⟩ := hplaces 2 'x' rfl
  simp at hc

end Pddl.Text
