import Pddl.Plan.Step
import Pddl.Proofs.Number.Leading

namespace Pddl

open Text

/-- Two excerpts with the same characters in front of `u` and in front of `v`. -/
def Excerpt.SameFront (u v : List Char) (e e' : Excerpt) : Prop :=
  ∃ cs, e.chars = cs ++ u ∧ e'.chars = cs ++ v

theorem Excerpt.chars_dropWhile (e : Excerpt) (p : Char → Bool) :
    (e.dropWhile p).chars = e.chars.dropWhile p := rfl

theorem Excerpt.dropWhile_of_stops {e : Excerpt} {p : Char → Bool} (h : Stops p e.chars) :
    e.dropWhile p = e := by
  have htake : ([] ++ e.chars).takeWhile p = [] := h.takeWhile_run (by simp)
  have hdrop : ([] ++ e.chars).dropWhile p = e.chars := h.dropWhile_run (by simp)
  rw [List.nil_append] at htake hdrop
  simp [Excerpt.dropWhile, Excerpt.spanWhile, htake, hdrop]

namespace Attempt

variable {α β : Type}

/-- The same answer in front of `u` and in front of `v`. -/
inductive Alike (u v : List Char) : Attempt α → Attempt α → Prop
  | done (value : α) {rest rest' : Excerpt} (h : rest.SameFront u v rest') :
      Alike u v (.done value rest) (.done value rest')
  | missed (here here' : Excerpt) : Alike u v (.missed here) (.missed here')
  | failed (here here' : Excerpt) : Alike u v (.failed here) (.failed here')

/-- Whether a reader gives the same answer whatever stands behind the line. -/
def Bounded (f : Excerpt → Attempt α) : Prop :=
  ∀ u v, AtLineEnd u → AtLineEnd v → ∀ e e', e.SameFront u v e' → Alike u v (f e) (f e')

theorem Bounded.of_done {f : Excerpt → Attempt α} (hf : Bounded f) {u v : List Char}
    (hu : AtLineEnd u) (hv : AtLineEnd v) {e e' rest : Excerpt} (h : e.SameFront u v e') {value : α}
    (hdone : f e = .done value rest) : ∃ rest', f e' = .done value rest' ∧ rest.SameFront u v rest' := by
  have halike := hf u v hu hv e e' h
  rw [hdone] at halike
  generalize f e' = b at halike
  cases halike with
  | done _ hrest => exact ⟨_, rfl, hrest⟩

theorem bounded_done (value : α) : Bounded (.done value) :=
  fun _ _ _ _ _ _ h => .done value h

theorem Bounded.andThen {f : Excerpt → Attempt α} {g : α → Excerpt → Attempt β} (hf : Bounded f)
    (hg : ∀ value, Bounded (g value)) : Bounded fun e => (f e).andThen g := by
  intro u v hu hv e e' h
  have halike := hf u v hu hv e e' h
  dsimp only
  generalize f e = a, f e' = b at halike
  cases halike with
  | done value hrest => exact hg value u v hu hv _ _ hrest
  | missed => exact .missed _ _
  | failed => exact .failed _ _

theorem Bounded.optional {f : Excerpt → Attempt α} (hf : Bounded f) :
    Bounded fun e => (f e).optional e := by
  intro u v hu hv e e' h
  have halike := hf u v hu hv e e' h
  dsimp only
  generalize f e = a, f e' = b at halike
  cases halike with
  | done value hrest => exact .done (some value) hrest
  | missed => exact .done none h
  | failed => exact .failed _ _

theorem Bounded.orElse {f g : Excerpt → Attempt α} (hf : Bounded f) (hg : Bounded g) :
    Bounded fun e => (f e).orElse (g e) := by
  intro u v hu hv e e' h
  have hfirst := hf u v hu hv e e' h
  have hsecond := hg u v hu hv e e' h
  dsimp only
  generalize f e = a, f e' = b at hfirst
  generalize g e = c, g e' = d at hsecond
  cases hfirst with
  | done value hrest => exact .done value hrest
  | failed => exact .failed _ _
  | missed =>
    cases hsecond with
    | done value hrest => exact .done value hrest
    | failed => exact .failed _ _
    | missed =>
      simp only [Attempt.orElse]
      split <;> split <;> exact .missed _ _

theorem bounded_behind {separator : Excerpt → Attempt Unit} {item : Excerpt → Attempt α}
    (hsep : Bounded separator) (hitem : Bounded item) : Bounded (behind separator item) :=
  hsep.andThen fun _ => hitem

theorem many_eq (item : Excerpt → Attempt α) (h : ∀ e, (item e).Shortens e) (e : Excerpt) :
    many item h e = match item e with
      | .missed _ => .done [] e
      | .failed here => .failed here
      | .done value rest => (many item h rest).andThen fun values rest => .done (value :: values) rest := by
  rw [many]
  split <;> simp_all

theorem many_of_missed {item : Excerpt → Attempt α} (h : ∀ e, (item e).Shortens e) {e here : Excerpt}
    (hitem : item e = .missed here) : many item h e = .done [] e := by
  rw [many_eq, hitem]

theorem many_of_done {item : Excerpt → Attempt α} (h : ∀ e, (item e).Shortens e)
    {e rest last : Excerpt} {value : α} {values : List α} (hitem : item e = .done value rest)
    (hmany : many item h rest = .done values last) : many item h e = .done (value :: values) last := by
  simp only [many_eq item h e, hitem, hmany, Attempt.andThen]

theorem bounded_many {item : Excerpt → Attempt α} (hshort : ∀ e, (item e).Shortens e)
    (hitem : Bounded item) : Bounded (many item hshort) := by
  intro u v hu hv e e' h
  induction hn : e.chars.length using Nat.strongRecOn generalizing e e' with
  | ind n ih =>
    have halike := hitem u v hu hv e e' h
    have hless := hshort e
    rw [many_eq, many_eq]
    generalize item e = a, item e' = b at halike hless
    cases halike with
    | missed => exact .done [] h
    | failed => exact .failed _ _
    | @done value rest rest' hrest =>
      have hmore := ih _ (hn ▸ hless value rest rfl) rest rest' hrest rfl
      dsimp only
      generalize many item hshort rest = c, many item hshort rest' = d at hmore
      cases hmore with
      | done values hlast => exact .done (value :: values) hlast
      | missed => exact .missed _ _
      | failed => exact .failed _ _

theorem bounded_manySeparated {separator : Excerpt → Attempt Unit} {item : Excerpt → Attempt α}
    (hsepShort : ∀ e, (separator e).Shortens e) (hitemShort : ∀ e, (item e).Shortens e)
    (hsep : Bounded separator) (hitem : Bounded item) :
    Bounded (manySeparated separator item hsepShort hitemShort) := by
  intro u v hu hv e e' h
  have halike := hitem u v hu hv e e' h
  unfold manySeparated
  generalize item e = a, item e' = b at halike
  cases halike with
  | missed => exact .done [] h
  | failed => exact .failed _ _
  | done value hrest =>
    have hmany := bounded_many (behind_shortens hsepShort hitemShort) (bounded_behind hsep hitem)
    exact hmany.andThen (fun values => bounded_done (value :: values)) u v hu hv _ _ hrest

theorem Bounded.dropWhile {f : Excerpt → Attempt α} {p : Char → Bool} (hf : Bounded f)
    (hp : WithinLine p) : Bounded fun e => f (e.dropWhile p) := by
  rintro u v hu hv e e' ⟨cs, he, he'⟩
  refine hf u v hu hv _ _ ⟨cs.dropWhile p, ?_, ?_⟩
  · rw [Excerpt.chars_dropWhile, he, (hp.stops hu).dropWhile_append]
  · rw [Excerpt.chars_dropWhile, he', (hp.stops hv).dropWhile_append]

theorem bounded_of_cons {f : Excerpt → Attempt α}
    (hnil : ∀ e, AtLineEnd e.chars → ∃ here, f e = .missed here)
    (hcons : ∀ u v, AtLineEnd u → AtLineEnd v → ∀ c cs e e', e.chars = c :: cs ++ u →
      e'.chars = c :: cs ++ v → Alike u v (f e) (f e')) : Bounded f := by
  rintro u v hu hv e e' ⟨cs, he, he'⟩
  cases cs with
  | nil =>
    obtain ⟨here, hf⟩ := hnil e (he ▸ hu)
    obtain ⟨here', hf'⟩ := hnil e' (he' ▸ hv)
    rw [hf, hf']
    exact .missed here here'
  | cons c cs => exact hcons u v hu hv c cs e e' he he'

theorem bounded_char {c : Char} (hc : c ≠ '\r' ∧ c ≠ '\n') : Bounded (char c) := by
  refine bounded_of_cons (fun e he => ?_) fun u v _ _ d cs e e' he he' => ?_
  · unfold char
    split
    · exact ⟨e, rfl⟩
    · rename_i d rest hchars
      have hne : d ≠ c := by
        rintro rfl
        exact (he d (by simp [hchars])).elim hc.1 hc.2
      exact ⟨e, if_neg hne⟩
  · simp only [char, he, he', List.cons_append]
    split
    · exact .done () ⟨cs, rfl, rfl⟩
    · exact .missed e e'

theorem bounded_run {p : Char → Bool} (hp : WithinLine p) : Bounded (run p) := by
  refine bounded_of_cons (fun e he => ?_) fun u v hu hv d cs e e' he he' => ?_
  · unfold run
    split
    · exact ⟨e, rfl⟩
    · rename_i d rest hchars
      have hd : p d = false := hp.stops he d (by simp [hchars])
      exact ⟨e, by simp [hd]⟩
  · have hfront : (e.dropWhile p).SameFront u v (e'.dropWhile p) :=
      ⟨(d :: cs).dropWhile p, by rw [Excerpt.chars_dropWhile, he, (hp.stops hu).dropWhile_append],
        by rw [Excerpt.chars_dropWhile, he', (hp.stops hv).dropWhile_append]⟩
    simp only [run, he, he', List.cons_append]
    split
    · exact .done () hfront
    · exact .missed e e'

end Attempt

namespace PlanStep

open Attempt

theorem withinLine_isSpace : WithinLine isSpace := ⟨by decide, by decide⟩

theorem withinLine_isWordChar : WithinLine isWordChar := ⟨by decide, by decide⟩

theorem bounded_readName : Bounded readName := by
  rintro u v hu hv e e' ⟨cs, he, he'⟩
  have hstopu : Stops isWordChar u := withinLine_isWordChar.stops hu
  have hstopv : Stops isWordChar v := withinLine_isWordChar.stops hv
  simp only [readName, Excerpt.splitWord?, he, he', hstopu.takeWhile_append,
    hstopv.takeWhile_append, hstopu.dropWhile_append, hstopv.dropWhile_append]
  cases cs.takeWhile isWordChar with
  | nil => exact .missed e e'
  | cons c word => exact .done _ ⟨cs.dropWhile isWordChar, rfl, rfl⟩

theorem bounded_readNumber : Bounded readNumber := by
  rintro u v hu hv e e' ⟨cs, he, he'⟩
  simp only [readNumber, he, he', Number.leading_append (Number.withinLine_isMark.stops hu),
    Number.leading_append (Number.withinLine_isMark.stops hv)]
  cases Number.leading cs with
  | absent => exact .missed e e'
  | unfinished => exact .failed e e'
  | present value rest =>
    have hdrop : ∀ tail : List Char, (cs ++ tail).drop ((cs ++ tail).length - (rest ++ tail).length) =
        cs.drop (cs.length - rest.length) ++ tail := by
      intro tail
      have hlength : (cs ++ tail).length - (rest ++ tail).length = cs.length - rest.length := by
        simp only [List.length_append]
        omega
      rw [hlength, List.drop_append_of_le_length (Nat.sub_le _ _)]
    exact .done value ⟨cs.drop (cs.length - rest.length), by simp only [Excerpt.drop, he, hdrop],
      by simp only [Excerpt.drop, he', hdrop]⟩

theorem readKey_eq (e : Excerpt) :
    readKey e = ((char 'd' e).andThen fun _ rest => .done .duration rest).orElse
      ((char 'c' e).andThen fun _ rest => .done .cost rest) := by
  obtain ⟨start, _ | ⟨c, cs⟩⟩ := e
  · simp [readKey, char, andThen, orElse]
  · by_cases hd : c = 'd'
    · subst hd
      simp [readKey, char, andThen, orElse]
    · by_cases hc : c = 'c'
      · subst hc
        simp [readKey, char, andThen, orElse]
      · simp [readKey, char, andThen, orElse, hd, hc]

theorem bounded_readKey : Bounded readKey := by
  rw [funext readKey_eq]
  exact ((bounded_char (by decide)).andThen fun _ => bounded_done _).orElse
    ((bounded_char (by decide)).andThen fun _ => bounded_done _)

theorem bounded_readArguments : Bounded readArguments :=
  bounded_many _ (bounded_behind (bounded_run withinLine_isSpace) bounded_readName)

theorem bounded_readBody : Bounded readBody :=
  bounded_readName.andThen fun name =>
    bounded_readArguments.andThen fun arguments => bounded_done (name, arguments)

theorem bounded_readGroup : Bounded readGroup :=
  (bounded_char (by decide)).andThen fun _ =>
    (bounded_readBody.dropWhile withinLine_isSpace).andThen fun body =>
      ((bounded_char (by decide)).dropWhile withinLine_isSpace).andThen fun _ => bounded_done body

theorem bounded_readTime : Bounded readTime :=
  bounded_readNumber.andThen fun time =>
    ((bounded_char (by decide)).dropWhile withinLine_isSpace).andThen fun _ =>
      (bounded_done time).dropWhile withinLine_isSpace

theorem bounded_readRemark : Bounded readRemark :=
  (bounded_readKey.dropWhile withinLine_isSpace).andThen fun key =>
    (bounded_char (by decide)).andThen fun _ =>
      bounded_readNumber.andThen fun value => bounded_done (key, value)

theorem bounded_readSemicolon : Bounded readSemicolon :=
  (bounded_char (by decide)).dropWhile withinLine_isSpace

theorem bounded_readRemarks : Bounded readRemarks :=
  ((bounded_char (by decide)).dropWhile withinLine_isSpace).andThen fun _ =>
    (bounded_manySeparated _ _ bounded_readSemicolon bounded_readRemark).andThen fun remarks =>
      ((bounded_char (by decide)).dropWhile withinLine_isSpace).andThen fun _ => bounded_done remarks

/-- A step never goes beyond its line, and what follows the line does not change it. -/
theorem bounded_readStep : Bounded readStep :=
  bounded_readTime.optional.andThen fun time =>
    (bounded_readGroup.orElse bounded_readBody).andThen fun body =>
      bounded_readRemarks.optional.andThen fun remarks => bounded_done (assemble time body remarks)

end PlanStep

end Pddl
