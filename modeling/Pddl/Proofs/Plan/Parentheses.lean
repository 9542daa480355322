import Pddl.Proofs.Number.Unfinished
import Pddl.Proofs.Plan.Steps

namespace Pddl

open Text

/-- A text that can be a name of a step or an argument. -/
def IsName (w : String) : Prop :=
  w.toList ≠ [] ∧ ∀ c ∈ w.toList, isWordChar c = true ∧ c ≠ ':'

instance (w : String) : Decidable (IsName w) :=
  decidable_of_iff
    (w.toList ≠ [] ∧ (w.toList.all fun c => isWordChar c && c ≠ ':') = true)
    (by simp [IsName])

namespace Text

def lowered (s : String) : String := String.ofList (lower s.toList)

theorem toList_lowered (s : String) : (lowered s).toList = lower s.toList := by
  rw [lowered, String.toList_ofList]

theorem toList_words_cons (s : String) (ss : List String) :
    (words (s :: ss)).toList = s.toList ++ (trailing ss).toList := by
  induction ss generalizing s with
  | nil => simp [words, joinWith, trailing]
  | cons t ss ih =>
    have hrest : (joinWith " " (t :: ss)).toList = t.toList ++ (trailing ss).toList := ih t
    simp [words, joinWith, trailing, hrest]

theorem toList_trailing_cons (s : String) (ss : List String) :
    (trailing (s :: ss)).toList = ' ' :: (s.toList ++ (trailing ss).toList) := by
  simp [trailing]

theorem lower_words (s : String) (ss : List String) :
    lower (words (s :: ss)).toList = (words ((s :: ss).map lowered)).toList := by
  induction ss generalizing s with
  | nil =>
    rw [List.map_singleton, toList_words_cons, toList_words_cons, toList_lowered]
    simp [trailing]
  | cons t ss ih =>
    have hrest := ih t
    rw [toList_words_cons, List.map_cons, toList_words_cons] at hrest
    rw [toList_words_cons, toList_trailing_cons, lower_append_cons (parts_of_sign (Or.inl rfl)),
      hrest, List.map_cons, List.map_cons, toList_words_cons, toList_trailing_cons,
      toList_lowered s]

theorem forall_mem_trailing {p : Char → Prop} (hblank : p ' ') {ss : List String}
    (h : ∀ s ∈ ss, ∀ c ∈ s.toList, p c) : ∀ c ∈ (trailing ss).toList, p c := by
  induction ss with
  | nil => simp [trailing]
  | cons s ss ih =>
    rw [List.forall_mem_cons] at h
    rw [toList_trailing_cons]
    exact List.forall_mem_cons.2 ⟨hblank, List.forall_mem_append.2 ⟨h.1, ih h.2⟩⟩

end Text

theorem IsName.lowered {w : String} (h : IsName w) : IsName (lowered w) := by
  rw [IsName, toList_lowered]
  refine ⟨?_, forall_mem_lowerAfter (fun c hform => ⟨hform.2, ?_⟩) h.2⟩
  · obtain ⟨c, cs, hw⟩ := List.exists_cons_of_ne_nil h.1
    obtain ⟨low, hlow, hne, -, -⟩ := lowerAfter_cons [] c cs
    rw [hw, lower, hlow]
    exact List.append_ne_nil_of_left_ne_nil hne _
  · rintro rfl
    exact absurd hform.1 (by decide)

theorem IsName.exists_cons {w : String} (h : IsName w) :
    ∃ c cs, w.toList = c :: cs ∧ isWordChar c = true := by
  obtain ⟨c, cs, hw⟩ := List.exists_cons_of_ne_nil h.1
  exact ⟨c, cs, hw, (h.2 c (by simp [hw])).1⟩

namespace PlanStep

open Attempt

variable {e : Excerpt} {name : String} {args : List String} {rest : List Char}

theorem not_isMargin_of_isWordChar (c : Char) (h : isWordChar c = true) : isMargin c = false := by
  by_contra hmargin
  rcases isMargin_iff.1 (by simpa using hmargin) with rfl | rfl | rfl | rfl <;>
    exact absurd h (by decide)

theorem not_isSpace_of_isWordChar (c : Char) (h : isWordChar c = true) : isSpace c = false := by
  have hmargin := not_isMargin_of_isWordChar c h
  simp only [isMargin, Bool.or_eq_false_iff] at hmargin
  exact Bool.or_eq_false_iff.2 hmargin.1.1

theorem stops_trailing {p : Char → Bool} (hblank : p ' ' = false) (hrest : Stops p rest)
    (args : List String) : Stops p ((trailing args).toList ++ rest) := by
  cases args with
  | nil => simpa [trailing] using hrest
  | cons a args =>
    rw [toList_trailing_cons]
    exact stops_cons hblank _

theorem char_eq_missed {c : Char} (h : e.chars.head? ≠ some c) : char c e = .missed e := by
  obtain ⟨start, _ | ⟨d, cs⟩⟩ := e
  · rfl
  · have hd : d ≠ c := fun hd => h (by simp [hd])
    exact if_neg hd

theorem readName_of_isName (hname : IsName name) (he : e.chars = name.toList ++ rest)
    (hrest : Stops isWordChar rest) : ∃ last, readName e = .done name last ∧ last.chars = rest := by
  have hword : ∀ c ∈ name.toList, isWordChar c = true := fun c hc => (hname.2 c hc).1
  obtain ⟨c, cs, hchars, -⟩ := hname.exists_cons
  have htake : e.chars.takeWhile isWordChar = c :: cs := by
    rw [he, hrest.takeWhile_run hword, hchars]
  have hdrop : e.chars.dropWhile isWordChar = rest := by
    rw [he, hrest.dropWhile_run hword]
  have hsplit : e.splitWord? =
      some (⟨e.start, c :: cs⟩, ⟨e.start.skip (c :: cs), e.chars.dropWhile isWordChar⟩) := by
    rw [Excerpt.splitWord?, htake]
  refine ⟨⟨e.start.skip (c :: cs), rest⟩, ?_, rfl⟩
  rw [readName, hsplit, hdrop]
  simp [Excerpt.text, ← hchars]

theorem readArguments_of_isName (hargs : ∀ a ∈ args, IsName a)
    (he : e.chars = (trailing args).toList ++ rest) (hword : Stops isWordChar rest)
    (hspace : Stops isSpace rest) :
    ∃ last, readArguments e = .done args last ∧ last.chars = rest := by
  induction args generalizing e with
  | nil =>
    have hchars : e.chars = rest := by simpa [trailing] using he
    -- without a blank no further argument is looked for
    have hmissed : ∃ here, behind (run isSpace) readName e = .missed here := by
      obtain ⟨start, _ | ⟨c, cs⟩⟩ := e
      · exact ⟨_, rfl⟩
      · have hc : isSpace c = false := hspace c (by simp [← hchars])
        exact ⟨⟨start, c :: cs⟩, by simp [behind, run, andThen, hc]⟩
    obtain ⟨here, hmissed⟩ := hmissed
    exact ⟨e, many_of_missed _ hmissed, hchars⟩
  | cons a args ih =>
    obtain ⟨ha, hargs⟩ := List.forall_mem_cons.1 hargs
    rw [toList_trailing_cons, List.cons_append, List.append_assoc] at he
    have hrun : run isSpace e = .done () (e.dropWhile isSpace) := by
      rw [run, he]
      rfl
    have hbehind : (e.dropWhile isSpace).chars = a.toList ++ ((trailing args).toList ++ rest) := by
      obtain ⟨c, cs, hchars, hc⟩ := ha.exists_cons
      have hstop : Stops isSpace (c :: (cs ++ ((trailing args).toList ++ rest))) :=
        stops_cons (not_isSpace_of_isWordChar c hc) _
      have hblank : ∀ c ∈ [' '], isSpace c = true := List.all_eq_true.1 (by decide)
      rw [Excerpt.chars_dropWhile, he, hchars]
      exact hstop.dropWhile_run hblank
    obtain ⟨next, hread, hnext⟩ := readName_of_isName ha hbehind (stops_trailing (by decide) hword args)
    obtain ⟨last, hmany, hlast⟩ := ih hargs hnext
    refine ⟨last, many_of_done _ ?_ hmany, hlast⟩
    simp [behind, hrun, andThen, hread]

theorem readBody_of_isName (h : ∀ w ∈ name :: args, IsName w)
    (he : e.chars = (words (name :: args)).toList ++ rest) (hword : Stops isWordChar rest)
    (hspace : Stops isSpace rest) :
    ∃ last, readBody e = .done (name, args) last ∧ last.chars = rest := by
  obtain ⟨hname, hargs⟩ := List.forall_mem_cons.1 h
  rw [toList_words_cons, List.append_assoc] at he
  obtain ⟨next, hread, hnext⟩ := readName_of_isName hname he (stops_trailing (by decide) hword args)
  obtain ⟨last, harguments, hlast⟩ := readArguments_of_isName hargs hnext hword hspace
  refine ⟨last, ?_, hlast⟩
  simp [readBody, hread, harguments, andThen]

/-- Without a colon there is no time, but looking for it can fail for good. -/
theorem readTime_of_not_mem (h : ':' ∉ e.chars) :
    (Number.Dangles e.chars → readTime e = .failed e) ∧
      (¬Number.Dangles e.chars → ∃ here, readTime e = .missed here) := by
  rw [← Number.leading_eq_unfinished]
  constructor
  · intro hdangles
    simp [readTime, readNumber, hdangles, andThen]
  · intro hdangles
    cases hleading : Number.leading e.chars with
    | absent => exact ⟨e, by simp [readTime, readNumber, hleading, andThen]⟩
    | unfinished => exact absurd hleading hdangles
    | present value left =>
      generalize hrest : e.drop (e.chars.length - left.length) = rest
      have hsuffix : rest.chars <:+ e.chars := hrest ▸ List.drop_suffix _ _
      have hcolon : (rest.dropWhile isSpace).chars.head? ≠ some ':' := fun hhead =>
        h (((List.dropWhile_suffix isSpace).trans hsuffix).subset (List.mem_of_mem_head? hhead))
      exact ⟨rest.dropWhile isSpace,
        by simp [readTime, readNumber, hleading, hrest, andThen, char_eq_missed hcolon]⟩

theorem readStep_of_body {here last : Excerpt} (htime : readTime e = .missed here)
    (hbody : (readGroup e).orElse (readBody e) = .done (name, args) last)
    (hlast : last.chars = []) : readStep e = .done ⟨name, args, none, none, none⟩ last := by
  have hremarks : readRemarks last = .missed (last.dropWhile isSpace) := by
    have hnone : (last.dropWhile isSpace).chars.head? ≠ some '[' := by
      simp [Excerpt.chars_dropWhile, hlast]
    simp [readRemarks, char_eq_missed hnone, andThen]
  simp [readStep, htime, hbody, hremarks, Attempt.optional, andThen, assemble, valueOf]

theorem char_eq_done {c : Char} (he : e.chars = c :: rest) :
    ∃ last, char c e = .done () last ∧ last.chars = rest :=
  ⟨⟨e.start.next c, rest⟩, by simp [char, he], rfl⟩

theorem stops_words {p : Char → Bool} (hp : ∀ c, isWordChar c = true → p c = false)
    (hname : IsName name) (args : List String) (rest : List Char) :
    Stops p ((words (name :: args)).toList ++ rest) := by
  obtain ⟨c, cs, hchars, hc⟩ := hname.exists_cons
  rw [toList_words_cons, hchars]
  exact stops_cons (hp c hc) _

theorem readGroup_of_isName (h : ∀ w ∈ name :: args, IsName w)
    (he : e.chars = '(' :: ((words (name :: args)).toList ++ ')' :: rest)) :
    ∃ last, readGroup e = .done (name, args) last ∧ last.chars = rest := by
  have hword : Stops isWordChar (')' :: rest) := stops_cons (by decide) rest
  have hspace : Stops isSpace (')' :: rest) := stops_cons (by decide) rest
  obtain ⟨inner, hopen, hinner⟩ := char_eq_done he
  obtain ⟨next, hbody, hnext⟩ := readBody_of_isName h hinner hword hspace
  obtain ⟨last, hclose, hlast⟩ := char_eq_done hnext
  have hfront : inner.dropWhile isSpace = inner := Excerpt.dropWhile_of_stops
    (hinner ▸ stops_words not_isSpace_of_isWordChar (List.forall_mem_cons.1 h).1 args _)
  have hback : next.dropWhile isSpace = next := Excerpt.dropWhile_of_stops (hnext ▸ hspace)
  exact ⟨last, by simp [readGroup, hopen, hfront, hbody, hback, hclose, andThen], hlast⟩

theorem forall_mem_words (h : ∀ w ∈ name :: args, IsName w) :
    ∀ c ∈ (words (name :: args)).toList, c = ' ' ∨ isWordChar c = true ∧ c ≠ ':' := by
  obtain ⟨hname, hargs⟩ := List.forall_mem_cons.1 h
  rw [toList_words_cons]
  exact List.forall_mem_append.2 ⟨fun c hc => Or.inr (hname.2 c hc),
    forall_mem_trailing (Or.inl rfl) fun a ha c hc => Or.inr ((hargs a ha).2 c hc)⟩

theorem not_mem_words (h : ∀ w ∈ name :: args, IsName w) {c : Char} (hblank : c ≠ ' ')
    (hword : isWordChar c = true → c = ':') : c ∉ (words (name :: args)).toList := by
  intro hmem
  rcases forall_mem_words h c hmem with hspace | ⟨hc, hcolon⟩
  · exact hblank hspace
  · exact hcolon (hword hc)

theorem readStep_group (h : ∀ w ∈ name :: args, IsName w)
    (he : e.chars = '(' :: ((words (name :: args)).toList ++ [')'])) :
    ∃ last, readStep e = .done ⟨name, args, none, none, none⟩ last ∧ last.chars = [] := by
  have hcolon : ':' ∉ e.chars := by
    simpa [he] using not_mem_words h (by decide) fun _ => rfl
  -- a parenthesis begins no number, whatever the name behind it is
  have hdangles : ¬Number.Dangles e.chars := by
    rw [he, ← List.nil_append ('(' :: _), Number.dangles_append (stops_cons (by decide) _)]
    exact Number.not_dangles_nil
  obtain ⟨here, htime⟩ := (readTime_of_not_mem hcolon).2 hdangles
  obtain ⟨last, hgroup, hlast⟩ := readGroup_of_isName h he
  exact ⟨last, readStep_of_body htime (by simp [hgroup, orElse]) hlast, hlast⟩

theorem readStep_words (h : ∀ w ∈ name :: args, IsName w)
    (he : e.chars = (words (name :: args)).toList) :
    (Number.Dangles name.toList → readStep e = .failed e) ∧
      (¬Number.Dangles name.toList →
        ∃ last, readStep e = .done ⟨name, args, none, none, none⟩ last ∧ last.chars = []) := by
  have hcolon : ':' ∉ e.chars := he ▸ not_mem_words h (by decide) fun _ => rfl
  -- no number goes on behind a blank, so the name alone decides
  have hmark : Stops Number.isMark (trailing args).toList := by
    simpa using stops_trailing (by decide) (stops_nil _) args
  rw [← Number.dangles_append hmark, ← toList_words_cons, ← he]
  obtain ⟨hfailed, hmissed⟩ := readTime_of_not_mem hcolon
  constructor
  · intro hdangles
    simp [readStep, hfailed hdangles, Attempt.optional, andThen]
  · intro hdangles
    obtain ⟨here, htime⟩ := hmissed hdangles
    obtain ⟨last, hbody, hlast⟩ := readBody_of_isName h (by rw [he, List.append_nil])
      (stops_nil _) (stops_nil _)
    have hopen : e.chars.head? ≠ some '(' := fun hhead =>
      not_mem_words h (by decide) (by decide) (he ▸ List.mem_of_mem_head? hhead)
    have hgroup : readGroup e = .missed e := by simp [readGroup, char_eq_missed hopen, andThen]
    exact ⟨last, readStep_of_body htime (by simp [hgroup, hbody, orElse]) hlast, hlast⟩

theorem firstLine_of_not_mem (hne : e.chars ≠ []) (h : '\n' ∉ e.chars) : e.firstLine = e.text := by
  rw [Excerpt.firstLine, lines_of_not_mem h, if_neg hne]
  rfl

theorem finish_readFramed_words (h : ∀ w ∈ name :: args, IsName w) :
    (readFramed (.ofString (words (name :: args)))).finish =
      if Number.Dangles name.toList then
        .error (.malformed 1 1 (.unrecognized (words (name :: args))))
      else .ok ⟨name, args, none, none, none⟩ := by
  generalize he : Excerpt.ofString (words (name :: args)) = e
  have hchars : e.chars = (words (name :: args)).toList := he ▸ rfl
  obtain ⟨hname, -⟩ := List.forall_mem_cons.1 h
  have hfront : e.dropWhile isMargin = e := Excerpt.dropWhile_of_stops (by
    simpa [hchars] using stops_words not_isMargin_of_isWordChar hname args [])
  obtain ⟨hfailed, hdone⟩ := readStep_words h hchars
  split
  · rename_i hdangles
    have hne : e.chars ≠ [] := by
      rw [hchars, toList_words_cons]
      exact List.append_ne_nil_of_left_ne_nil hname.1 _
    have hline : '\n' ∉ e.chars := hchars ▸ not_mem_words h (by decide) (by decide)
    rw [readFramed, hfront, hfailed hdangles, andThen, finish, firstLine_of_not_mem hne hline, ← he,
      Excerpt.text_ofString]
    rfl
  · rename_i hdangles
    obtain ⟨last, hstep, hlast⟩ := hdone hdangles
    rw [readFramed, hfront, hstep]
    exact finish_eq_ok.2 ⟨last.dropWhile isMargin, rfl, by simp [Excerpt.chars_dropWhile, hlast]⟩

theorem prepareChars_words (h : ∀ w ∈ name :: args, IsName w) :
    prepareChars (words (name :: args)).toList = (words ((name :: args).map lowered)).toList := by
  rw [prepareChars_eq_lower, lower_words]
  rintro c hc
  refine ⟨?_, ?_, ?_⟩ <;> rintro rfl <;> exact not_mem_words h (by decide) (by decide) hc

theorem prepareChars_group (h : ∀ w ∈ name :: args, IsName w) :
    prepareChars ("(" ++ words (name :: args) ++ ")").toList =
      '(' :: ((words ((name :: args).map lowered)).toList ++ [')']) := by
  have hchars : ("(" ++ words (name :: args) ++ ")").toList =
      [] ++ '(' :: ((words (name :: args)).toList ++ ')' :: []) := by
    simp
  rw [hchars, prepareChars_eq_lower, lower_append_cons (parts_of_sign (by simp)),
    lower_append_cons (parts_of_sign (by simp)), lower_words]
  · rfl
  · intro c hc
    rcases List.mem_cons.1 hc with rfl | hc
    · decide
    · rcases List.mem_append.1 hc with hc | hc
      · refine ⟨?_, ?_, ?_⟩ <;> rintro rfl <;> exact not_mem_words h (by decide) (by decide) hc
      · rw [List.mem_singleton.1 hc]
        decide

/-- Parentheses around a name and its arguments are optional, and both are read in lowercase; only a
name that begins with a number without an end needs them. -/
theorem ofLine_words (h : ∀ w ∈ name :: args, IsName w) :
    PlanStep.ofLine ("(" ++ words (name :: args) ++ ")") =
        .ok ⟨lowered name, args.map lowered, none, none, none⟩ ∧
      PlanStep.ofLine (words (name :: args)) =
        if Number.Dangles (lowered name).toList then
          .error (.malformed 1 1 (.unrecognized (words ((name :: args).map lowered))))
        else .ok ⟨lowered name, args.map lowered, none, none, none⟩ := by
  have hnames : ∀ w ∈ lowered name :: args.map lowered, IsName w := by
    rw [← List.map_cons]
    exact List.forall_mem_map.2 fun w hw => (h w hw).lowered
  constructor
  · rw [Plan.ofLine_eq_ok, prepareChars_group h, Plan.holds_singleton,
      List.dropWhile_cons_of_neg (by decide)]
    obtain ⟨last, hstep, hlast⟩ := readStep_group (e := ⟨.origin, _⟩) hnames rfl
    exact ⟨[], ⟨.origin, last, hstep, hlast⟩, by simp [IsMargin]⟩
  · have hprepared : prepare (words (name :: args)) = words ((name :: args).map lowered) := by
      rw [prepare, prepareChars_words h, String.ofList_toList]
    rw [ofLine, hprepared]
    exact finish_readFramed_words hnames

/-- A name that is a number as a whole, and an argument that ends in a sigma. -/
theorem ofLine_words_street : (∀ w ∈ ["1E5", "ΟΔΟΣ"], IsName w) ∧
    PlanStep.ofLine "(1E5 ΟΔΟΣ)" = .ok ⟨"1e5", ["οδος"], none, none, none⟩ ∧
    PlanStep.ofLine "1E5 ΟΔΟΣ" = .ok ⟨"1e5", ["οδος"], none, none, none⟩ := by
  have hnames : ∀ w ∈ ["1E5", "ΟΔΟΣ"], IsName w := by decide +kernel
  have hname : lowered "1E5" = "1e5" := by decide +kernel
  have hargument : lowered "ΟΔΟΣ" = "οδος" := by decide +kernel
  have hends : ¬Number.Dangles "1e5".toList := by decide +kernel
  obtain ⟨hgroup, hwords⟩ := ofLine_words hnames
  simp only [hname, hargument, List.map_cons, List.map_nil, if_neg hends] at hgroup hwords
  exact ⟨hnames, hgroup, hwords⟩

/-- Without its parentheses a step is lost whose name begins with digits and an exponent mark. -/
theorem ofLine_dangling : (∀ w ∈ ["3east", "a"], IsName w) ∧
    PlanStep.ofLine "(3east a)" = .ok ⟨"3east", ["a"], none, none, none⟩ ∧
    PlanStep.ofLine "3east a" = .error (.malformed 1 1 (.unrecognized "3east a")) := by
  decide +kernel

end PlanStep

end Pddl
