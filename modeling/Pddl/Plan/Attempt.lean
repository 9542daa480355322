import Pddl.Text.Position

namespace Pddl

/-- What comes of looking for something at the front of a text. A miss leaves room for another attempt;
a failure ends the reading. -/
inductive Attempt (α : Type) where
  | done (value : α) (rest : Excerpt)
  | missed (here : Excerpt)
  | failed (here : Excerpt)
  deriving Repr

namespace Attempt

variable {α β : Type}

def andThen (a : Attempt α) (f : α → Excerpt → Attempt β) : Attempt β :=
  match a with
  | .done v rest => f v rest
  | .missed here => .missed here
  | .failed here => .failed here

def optional (e : Excerpt) (a : Attempt α) : Attempt (Option α) :=
  match a with
  | .done v rest => .done (some v) rest
  | .missed _ => .done none e
  | .failed here => .failed here

/-- The second attempt if the first one misses; of two misses the one further on counts, or the
first if they are at the same place. -/
def orElse (a b : Attempt α) : Attempt α :=
  match a, b with
  | .missed here, .missed there =>
    if here.start.offset < there.start.offset then .missed there else .missed here
  | .missed _, b => b
  | a, _ => a

def Shortens (e : Excerpt) (a : Attempt α) : Prop :=
  ∀ v rest, a = .done v rest → rest.chars.length < e.chars.length

def Keeps (e : Excerpt) (a : Attempt α) : Prop :=
  ∀ v rest, a = .done v rest → rest.chars.length ≤ e.chars.length

theorem Shortens.keeps {e : Excerpt} {a : Attempt α} (h : a.Shortens e) : a.Keeps e :=
  fun v rest heq => Nat.le_of_lt (h v rest heq)

theorem Shortens.of_le {e e' : Excerpt} {a : Attempt α} (h : a.Shortens e')
    (hle : e'.chars.length ≤ e.chars.length) : a.Shortens e :=
  fun v rest heq => Nat.lt_of_lt_of_le (h v rest heq) hle

theorem Keeps.of_le {e e' : Excerpt} {a : Attempt α} (h : a.Keeps e')
    (hle : e'.chars.length ≤ e.chars.length) : a.Keeps e :=
  fun v rest heq => Nat.le_trans (h v rest heq) hle

theorem keeps_done {e rest : Excerpt} {v : α} (h : rest.chars.length ≤ e.chars.length) :
    (done v rest).Keeps e := by
  intro w rest' heq
  simp only [done.injEq] at heq
  exact heq.2 ▸ h

theorem Shortens.andThen {e : Excerpt} {a : Attempt α} {f : α → Excerpt → Attempt β}
    (ha : a.Shortens e) (hf : ∀ v rest, (f v rest).Keeps rest) : (a.andThen f).Shortens e := by
  intro w rest' heq
  cases a with
  | done v rest => exact Nat.lt_of_le_of_lt (hf v rest w rest' heq) (ha v rest rfl)
  | missed here => simp [Attempt.andThen] at heq
  | failed here => simp [Attempt.andThen] at heq

theorem Keeps.andThen {e : Excerpt} {a : Attempt α} {f : α → Excerpt → Attempt β}
    (ha : a.Keeps e) (hf : ∀ v rest, (f v rest).Keeps rest) : (a.andThen f).Keeps e := by
  intro w rest' heq
  cases a with
  | done v rest => exact Nat.le_trans (hf v rest w rest' heq) (ha v rest rfl)
  | missed here => simp [Attempt.andThen] at heq
  | failed here => simp [Attempt.andThen] at heq

theorem Keeps.andThen_shortens {e : Excerpt} {a : Attempt α} {f : α → Excerpt → Attempt β}
    (ha : a.Keeps e) (hf : ∀ v rest, (f v rest).Shortens rest) : (a.andThen f).Shortens e := by
  intro w rest' heq
  cases a with
  | done v rest => exact Nat.lt_of_lt_of_le (hf v rest w rest' heq) (ha v rest rfl)
  | missed here => simp [Attempt.andThen] at heq
  | failed here => simp [Attempt.andThen] at heq

theorem Keeps.optional {e : Excerpt} {a : Attempt α} (h : a.Keeps e) : (a.optional e).Keeps e := by
  intro w rest' heq
  cases a with
  | done v rest =>
    simp only [Attempt.optional, done.injEq] at heq
    exact heq.2 ▸ h v rest rfl
  | missed here =>
    simp only [Attempt.optional, done.injEq] at heq
    exact heq.2 ▸ Nat.le_refl _
  | failed here => simp [Attempt.optional] at heq

theorem Shortens.orElse {e : Excerpt} {a b : Attempt α} (ha : a.Shortens e) (hb : b.Shortens e) :
    (a.orElse b).Shortens e := by
  intro w rest' heq
  cases a with
  | done v rest => exact ha w rest' heq
  | failed here => simp [Attempt.orElse] at heq
  | missed here =>
    cases b with
    | done v rest => exact hb w rest' heq
    | failed there => simp [Attempt.orElse] at heq
    | missed there =>
      simp only [Attempt.orElse] at heq
      split at heq <;> simp at heq

def many (item : Excerpt → Attempt α) (h : ∀ e, (item e).Shortens e) (e : Excerpt) :
    Attempt (List α) :=
  match heq : item e with
  | .missed _ => .done [] e
  | .failed here => .failed here
  | .done v rest =>
    have := h e v rest heq
    (many item h rest).andThen fun vs rest => .done (v :: vs) rest
termination_by e.chars.length

theorem many_keeps (item : Excerpt → Attempt α) (h : ∀ e, (item e).Shortens e) (e : Excerpt) :
    (many item h e).Keeps e := by
  fun_induction many item h e with
  | case1 e => exact keeps_done (Nat.le_refl _)
  | case2 => intro v rest heq; simp at heq
  | case3 e v rest heq hlt ih =>
    exact (ih.andThen fun _ _ => keeps_done (Nat.le_refl _)).of_le (Nat.le_of_lt hlt)

/-- An item behind a separator. -/
def behind (separator : Excerpt → Attempt Unit) (item : Excerpt → Attempt α) (e : Excerpt) :
    Attempt α :=
  (separator e).andThen fun _ rest => item rest

theorem behind_shortens {separator : Excerpt → Attempt Unit} {item : Excerpt → Attempt α}
    (hsep : ∀ e, (separator e).Shortens e) (hitem : ∀ e, (item e).Shortens e) (e : Excerpt) :
    (behind separator item e).Shortens e :=
  (hsep e).andThen fun _ rest => (hitem rest).keeps

/-- Items with separators between them; a separator is read only if an item follows it. -/
def manySeparated (separator : Excerpt → Attempt Unit) (item : Excerpt → Attempt α)
    (hsep : ∀ e, (separator e).Shortens e) (hitem : ∀ e, (item e).Shortens e) (e : Excerpt) :
    Attempt (List α) :=
  match item e with
  | .missed _ => .done [] e
  | .failed here => .failed here
  | .done v rest =>
    (many (behind separator item) (behind_shortens hsep hitem) rest).andThen fun vs rest =>
      .done (v :: vs) rest

theorem manySeparated_keeps (separator : Excerpt → Attempt Unit) (item : Excerpt → Attempt α)
    (hsep : ∀ e, (separator e).Shortens e) (hitem : ∀ e, (item e).Shortens e) (e : Excerpt) :
    (manySeparated separator item hsep hitem e).Keeps e := by
  unfold manySeparated
  split
  · exact keeps_done (Nat.le_refl _)
  · intro v rest heq; simp at heq
  · rename_i v rest heq
    exact ((many_keeps _ _ rest).andThen fun _ _ => keeps_done (Nat.le_refl _)).of_le
      (Nat.le_of_lt (hitem e v rest heq))

def char (c : Char) (e : Excerpt) : Attempt Unit :=
  match e.chars with
  | [] => .missed e
  | d :: rest => if d = c then .done () ⟨e.start.next d, rest⟩ else .missed e

theorem char_shortens (c : Char) (e : Excerpt) : (char c e).Shortens e := by
  intro v rest heq
  unfold char at heq
  split at heq
  · simp at heq
  · rename_i d ds hchars
    split at heq
    · simp only [done.injEq, true_and] at heq
      simp [← heq, hchars]
    · simp at heq

def run (p : Char → Bool) (e : Excerpt) : Attempt Unit :=
  match e.chars with
  | [] => .missed e
  | c :: _ => if p c then .done () (e.dropWhile p) else .missed e

theorem length_dropWhile_le (p : Char → Bool) (e : Excerpt) :
    (e.dropWhile p).chars.length ≤ e.chars.length :=
  (List.dropWhile_suffix p).length_le

theorem run_shortens (p : Char → Bool) (e : Excerpt) : (run p e).Shortens e := by
  intro v rest heq
  unfold run at heq
  split at heq
  · simp at heq
  · rename_i c cs hchars
    split at heq
    · rename_i hp
      simp only [done.injEq, true_and] at heq
      have hle := (List.dropWhile_suffix (l := cs) p).length_le
      simp only [← heq, Excerpt.dropWhile, Excerpt.spanWhile, hchars, List.dropWhile_cons, hp,
        if_true, List.length_cons]
      omega
    · simp at heq

end Attempt

end Pddl
