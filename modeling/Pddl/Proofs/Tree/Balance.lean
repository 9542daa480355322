import Mathlib.Data.List.Induction
import Pddl.Proofs.Text.Characters
import Pddl.Proofs.Tree.Items

namespace Pddl

open Text

/-- As many closing parentheses as opening ones. -/
def Balanced (cs : List Char) : Prop := cs.count ')' = cs.count '('

/-- A text that opens a parenthesis and is balanced at its end for the first time. -/
structure IsGroup (cs : List Char) : Prop where
  opening : cs.head? = some '('
  balanced : Balanced cs
  first : ∀ front, front ≠ [] → front <+: cs → Balanced front → front = cs

theorem head?_of_front {front cs : List Char} {c : Char} (hne : front ≠ []) (hfront : front <+: cs)
    (h : cs.head? = some c) : front.head? = some c := by
  obtain ⟨rest, rfl⟩ := hfront
  rwa [List.head?_append_of_ne_nil _ hne] at h

/-- While a text is not balanced it is ahead in opening parentheses: each character changes the
depth by one at most. -/
theorem count_lt_of_unbalanced {cs : List Char} (hopen : cs.head? = some '(')
    (h : ∀ front, front ≠ [] → front <+: cs → ¬Balanced front) : cs.count ')' < cs.count '(' := by
  induction cs using List.reverseRecOn with
  | nil => simp at hopen
  | append_singleton cs c ih =>
    have hwhole := h (cs ++ [c]) (by simp) List.prefix_rfl
    simp only [Balanced, List.count_append, List.count_singleton] at hwhole ⊢
    by_cases hne : cs = []
    · obtain rfl : c = '(' := by simpa [hne] using hopen
      simp [hne]
    · have hahead := ih (head?_of_front hne (List.prefix_append cs [c]) hopen)
        fun front hfront hpre => h front hfront (hpre.trans (List.prefix_append cs [c]))
      split_ifs at hwhole ⊢ <;> omega

namespace IsGroup

variable {group : List Char}

theorem nonempty (h : IsGroup group) : group ≠ [] := by
  rintro rfl
  exact absurd h.opening (by simp)

theorem ahead (h : IsGroup group) {front : List Char} (hne : front ≠ []) (hfront : front <+: group)
    (hproper : front ≠ group) : front.count ')' < front.count '(' := by
  refine count_lt_of_unbalanced (head?_of_front hne hfront h.opening) fun part hpart hpre hbal => ?_
  have hwhole : part = group := h.first part hpart (hpre.trans hfront) hbal
  exact hproper (hfront.eq_of_length_le (hwhole ▸ hpre.length_le))

/-- The last character brings the depth back from one to zero. -/
theorem eq_append_closing (h : IsGroup group) :
    ∃ front, group = front ++ [')'] ∧ front.count '(' = front.count ')' + 1 := by
  obtain ⟨front, c, rfl⟩ := (List.eq_nil_or_concat' group).resolve_left h.nonempty
  have hne : front ≠ [] := by
    rintro rfl
    obtain rfl : c = '(' := by simpa using h.opening
    exact absurd h.balanced (by simp [Balanced])
  have hahead := h.ahead hne (List.prefix_append front [c]) (by simp)
  have hbal := h.balanced
  simp only [Balanced, List.count_append] at hbal
  by_cases hc : c = ')'
  · subst hc
    exact ⟨front, rfl, by simpa using hbal.symm⟩
  · have hless : [c].count ')' = 0 := by simp [hc]
    omega

end IsGroup

theorem exists_isGroup {cs : List Char} (hopen : cs.head? = some '(') (hbal : Balanced cs) :
    ∃ group, IsGroup group ∧ group <+: cs := by
  induction hn : cs.length using Nat.strongRecOn generalizing cs with
  | ind n ih =>
    by_cases hfirst : ∀ front, front ≠ [] → front <+: cs → Balanced front → front = cs
    · exact ⟨cs, ⟨hopen, hbal, hfirst⟩, List.prefix_rfl⟩
    · push Not at hfirst
      obtain ⟨front, hne, hfront, hfbal, hproper⟩ := hfirst
      have hless : front.length < n :=
        hn ▸ Nat.lt_of_le_of_ne hfront.length_le fun heq => hproper (hfront.eq_of_length heq)
      obtain ⟨group, hgroup, hpre⟩ := ih _ hless (head?_of_front hne hfront hopen) hfbal rfl
      exact ⟨group, hgroup, hpre.trans hfront⟩

theorem closeGroup_step {depth : Nat} {c : Char} {cs : List Char}
    (h : [c].count ')' < depth + [c].count '(') :
    closeGroup depth (c :: cs) =
      (closeGroup (depth + [c].count '(' - [c].count ')') cs).map fun p => (c :: p.1, p.2) := by
  by_cases hopen : c = '('
  · simp [closeGroup, hopen]
  · by_cases hclose : c = ')'
    · subst hclose
      have hdeep : ¬depth ≤ 1 := by simpa using h
      simp [closeGroup, hdeep]
    · simp [closeGroup, hopen, hclose]

/-- As long as the group is open, the scan counts the depth of what it has read. -/
theorem closeGroup_front {depth : Nat} {front rest : List Char}
    (h : ∀ part, part <+: front → part.count ')' < depth + part.count '(') :
    closeGroup depth (front ++ rest) =
      (closeGroup (depth + front.count '(' - front.count ')') rest).map
        fun p => (front ++ p.1, p.2) := by
  induction front generalizing depth with
  | nil => simp
  | cons c front ih =>
    have hc := h [c] (by simp)
    have hmore : ∀ part, part <+: front →
        part.count ')' < depth + [c].count '(' - [c].count ')' + part.count '(' := by
      intro part hpart
      have hcons := h (c :: part) (List.cons_prefix_cons.2 ⟨rfl, hpart⟩)
      rw [← List.singleton_append, List.count_append, List.count_append] at hcons
      omega
    -- subtraction does not cut off, since no part of `front` closes more than is open
    have hdepth : depth + (c :: front).count '(' - (c :: front).count ')' =
        depth + [c].count '(' - [c].count ')' + front.count '(' - front.count ')' := by
      have hwhole := h (c :: front) List.prefix_rfl
      rw [← List.singleton_append, List.count_append, List.count_append] at hwhole ⊢
      omega
    rw [List.cons_append, closeGroup_step hc, ih hmore, hdepth, Option.map_map]
    rfl

/-- Behind an opening parenthesis the scan goes on with the depth of what it has read, which is
positive as long as nothing read is balanced. -/
theorem closeGroup_open {front : List Char} (hopen : front.head? = some '(')
    (h : ∀ part, part ≠ [] → part <+: front → ¬Balanced part) (rest : List Char) :
    closeGroup 0 (front ++ rest) =
      (closeGroup (front.count '(' - front.count ')') rest).map fun p => (front ++ p.1, p.2) := by
  obtain ⟨inner, rfl⟩ := List.head?_eq_some_iff.1 hopen
  have hinner : ∀ part, part <+: inner → part.count ')' < 1 + part.count '(' := by
    intro part hpart
    have hcons : '(' :: part <+: '(' :: inner := List.cons_prefix_cons.2 ⟨rfl, hpart⟩
    have hunbalanced : ∀ more, more ≠ [] → more <+: '(' :: part → ¬Balanced more :=
      fun more hne hmore => h more hne (hmore.trans hcons)
    have hless := count_lt_of_unbalanced rfl hunbalanced
    simp at hless
    omega
  have hdepth : ('(' :: inner).count '(' - ('(' :: inner).count ')' =
      1 + inner.count '(' - inner.count ')' := by
    simp [Nat.add_comm]
  rw [List.cons_append, closeGroup, if_pos rfl, closeGroup_front hinner, hdepth, Option.map_map]
  rfl

theorem closeGroup_of_isGroup {group : List Char} (h : IsGroup group) (rest : List Char) :
    closeGroup 0 (group ++ rest) = some (group, rest) := by
  obtain ⟨front, rfl, hdepth⟩ := h.eq_append_closing
  have hne : front ≠ [] := by
    rintro rfl
    simp at hdepth
  have hunbalanced : ∀ part, part ≠ [] → part <+: front → ¬Balanced part := by
    intro part hpart hpre hbal
    have hwhole := h.first part hpart (hpre.trans (List.prefix_append front [')'])) hbal
    have hlen := hpre.length_le
    rw [hwhole, List.length_append, List.length_singleton] at hlen
    omega
  have hone : front.count '(' - front.count ')' = 1 := by omega
  rw [List.append_assoc, closeGroup_open
    (head?_of_front hne (List.prefix_append front [')']) h.opening) hunbalanced, hone]
  simp [closeGroup]

theorem closeGroup_eq_none {cs : List Char} (hopen : cs.head? = some '(')
    (h : ∀ front, front ≠ [] → front <+: cs → ¬Balanced front) : closeGroup 0 cs = none := by
  have hclose := closeGroup_open hopen h []
  rwa [List.append_nil, closeGroup, Option.map_none] at hclose

theorem closeGroup_eq_some_iff {cs group rest : List Char} (hopen : cs.head? = some '(') :
    closeGroup 0 cs = some (group, rest) ↔ IsGroup group ∧ group ++ rest = cs := by
  constructor
  · intro h
    obtain ⟨happend, -⟩ := closeGroup_append h
    refine ⟨?_, happend⟩
    by_contra hnot
    refine absurd (closeGroup_eq_none hopen fun front hne hfront hbal => ?_) (by simp [h])
    obtain ⟨first, hfirst, hpre⟩ := exists_isGroup (head?_of_front hne hfront hopen) hbal
    obtain ⟨left, hleft⟩ := hpre.trans hfront
    rw [← hleft, closeGroup_of_isGroup hfirst, Option.some.injEq, Prod.mk.injEq] at h
    exact hnot (h.1 ▸ hfirst)
  · rintro ⟨hgroup, rfl⟩
    exact closeGroup_of_isGroup hgroup rest

/-- The shortest balanced text in front of `cs`, which is a group. -/
structure FirstBalanced (cs group : List Char) : Prop where
  front : group <+: cs
  nonempty : group ≠ []
  balanced : Balanced group
  shortest : ∀ front, front ≠ [] → front <+: cs → Balanced front → group <+: front
  opening : group.head? = some '('
  closing : group.getLast? = some ')'
  ahead : ∀ front, front ≠ [] → front <+: group → front ≠ group → front.count ')' < front.count '('

theorem IsGroup.firstBalanced {group cs : List Char} (h : IsGroup group) (hfront : group <+: cs) :
    FirstBalanced cs group where
  front := hfront
  nonempty := h.nonempty
  balanced := h.balanced
  shortest front hne hpre hbal := by
    rcases List.prefix_or_prefix_of_prefix hfront hpre with hle | hle
    · exact hle
    · exact h.first front hne hle hbal ▸ List.prefix_rfl
  opening := h.opening
  closing := by
    obtain ⟨front, rfl, -⟩ := h.eq_append_closing
    exact List.getLast?_concat
  ahead _ hne hpre hproper := h.ahead hne hpre hproper

namespace Excerpt

theorem dropBytesFrom_append (start : Position) (before after : List Char) :
    dropBytesFrom start (before ++ after) (String.utf8Len before) = ⟨start.skip before, after⟩ := by
  induction before generalizing start with
  | nil => cases after <;> rfl
  | cons c before ih =>
    have hpos := c.utf8Size_pos
    rw [List.cons_append, String.utf8Len_cons, dropBytesFrom, if_neg (by omega),
      Nat.add_sub_cancel, ih]
    rfl

theorem expressionAt_open {e : Excerpt} {before after : List Char} (h : e.chars = before ++ after)
    (hopen : after.head? = some '(') :
    e.expressionAt (String.utf8Len before) =
      match closeGroup 0 after with
      | some (group, _) => .ok ⟨e.start.skip before, group⟩
      | none => .error ((e.start.skip before).fault .unclosed) := by
  obtain ⟨inner, rfl⟩ := List.head?_eq_some_iff.1 hopen
  rw [expressionAt, dropBytes, h, dropBytesFrom_append]
  rfl

theorem expressionAt_eq_ok_iff {e r : Excerpt} {before after : List Char}
    (h : e.chars = before ++ after) (hopen : after.head? = some '(') :
    e.expressionAt (String.utf8Len before) = .ok r ↔
      r.start = e.start.skip before ∧ IsGroup r.chars ∧ r.chars <+: after := by
  obtain ⟨start, chars⟩ := r
  rw [expressionAt_open h hopen]
  constructor
  · intro hr
    split at hr
    · rename_i group rest hclose
      obtain ⟨hgroup, hrest⟩ := (closeGroup_eq_some_iff hopen).1 hclose
      obtain ⟨rfl, rfl⟩ := Excerpt.mk.inj (Except.ok.inj hr)
      exact ⟨rfl, hgroup, rest, hrest⟩
    · simp at hr
  · rintro ⟨hstart, hgroup, rest, hrest⟩
    simp only at hstart hgroup hrest
    rw [(closeGroup_eq_some_iff hopen).2 ⟨hgroup, hrest⟩, hstart]

/-- Scanning for balanced expressions is exact. At a byte that is an opening parenthesis a group is
found if and only if some text from there is balanced, and it is the shortest one; until its end the
depth that is counted is the number of parentheses that are open, which is positive. The expressions
of a whole text are the items that it has in parentheses, if all of these are groups. -/
theorem expressions_exact (e : Excerpt) :
    (∀ offset, (bytes e.text)[offset]? = some (UInt8.ofNat '('.toNat) →
      ∃ before after, e.chars = before ++ after ∧ String.utf8Len before = offset ∧
        ((∃ r, e.expressionAt offset = .ok r) ↔
          ∃ front, front ≠ [] ∧ front <+: after ∧ Balanced front) ∧
        (∀ r, e.expressionAt offset = .ok r →
          r.start = e.start.skip before ∧ FirstBalanced after r.chars) ∧
        ∀ front rest, after = front ++ rest → front ≠ [] →
          (∀ part, part ≠ [] → part <+: front → ¬Balanced part) →
          front.count ')' < front.count '(' ∧
            closeGroup 0 after = (closeGroup (front.count '(' - front.count ')') rest).map
              fun p => (front ++ p.1, p.2)) ∧
    ∀ (start : Position) (texts : List (List Char)),
      (∃ es, e.siblings = .ok es ∧ es.map chars = texts) ↔
        ∃ es : List Excerpt, Excerpt.items ⟨start, '(' :: (e.chars ++ [')'])⟩ = .ok (es.map .group) ∧
          es.map chars = texts := by
  constructor
  · intro offset hbyte
    obtain ⟨before, inner, hchars, hoffset⟩ := exists_append_of_byte (by decide) hbyte
    subst hoffset
    have hopen : ('(' :: inner).head? = some '(' := rfl
    refine ⟨before, '(' :: inner, hchars, rfl, ?_, ?_, ?_⟩
    · constructor
      · rintro ⟨r, hr⟩
        obtain ⟨-, hgroup, hfront⟩ := (expressionAt_eq_ok_iff hchars hopen).1 hr
        exact ⟨r.chars, hgroup.nonempty, hfront, hgroup.balanced⟩
      · rintro ⟨front, hne, hfront, hbal⟩
        obtain ⟨group, hgroup, hpre⟩ := exists_isGroup (head?_of_front hne hfront hopen) hbal
        exact ⟨⟨e.start.skip before, group⟩,
          (expressionAt_eq_ok_iff hchars hopen).2 ⟨rfl, hgroup, hpre.trans hfront⟩⟩
    · intro r hr
      obtain ⟨hstart, hgroup, hfront⟩ := (expressionAt_eq_ok_iff hchars hopen).1 hr
      exact ⟨hstart, hgroup.firstBalanced hfront⟩
    · intro front rest hafter hne hunbalanced
      have hfront := head?_of_front hne ⟨rest, hafter.symm⟩ hopen
      exact ⟨count_lt_of_unbalanced hfront hunbalanced,
        hafter ▸ closeGroup_open hfront hunbalanced rest⟩
  · intro start texts
    simp only [items_parenthesized]
    exact siblingsFrom_iff_itemsFrom e.start (start.next '(')

def nested : Excerpt := .ofString "λ (a (b)) (c"

theorem expressions_exact_nested :
    (bytes nested.text)[3]? = some (UInt8.ofNat '('.toNat) ∧
      ∃ r, nested.expressionAt 3 = .ok r ∧ r.text = "(a (b))" ∧
        ∃ after, FirstBalanced after r.chars := by
  have hbyte : (bytes nested.text)[3]? = some (UInt8.ofNat '('.toNat) := by decide +kernel
  have hread : ∃ r, nested.expressionAt 3 = .ok r ∧ r.text = "(a (b))" := by decide +kernel
  obtain ⟨before, after, -, -, -, hfirst, -⟩ := (expressions_exact nested).1 3 hbyte
  obtain ⟨r, hr, htext⟩ := hread
  exact ⟨hbyte, r, hr, htext, after, (hfirst r hr).2⟩

end Excerpt

end Pddl
