import Pddl.Proofs.Tree.Listing

namespace Pddl

open Text

namespace Position

/-- The place behind some characters, counted from the beginning of the text: the bytes from zero,
the line feeds from one and, from one as well, the characters behind the last line feed. -/
structure IsBehind (p : Position) (before : List Char) : Prop where
  offset : p.offset = String.utf8Len before
  line : p.line = 1 + before.count '\n'
  column : p.column = 1 + (before.reverse.takeWhile (· ≠ '\n')).length

theorem isBehind_origin : origin.IsBehind [] := ⟨rfl, rfl, rfl⟩

theorem IsBehind.next {p : Position} {before : List Char} (h : p.IsBehind before) (c : Char) :
    (p.next c).IsBehind (before ++ [c]) := by
  have hoffset : p.offset + c.utf8Size = String.utf8Len (before ++ [c]) := by
    simp [h.offset, String.utf8Len_append]
  by_cases hc : c = '\n'
  · subst hc
    exact ⟨hoffset, by simp [Position.next, h.line, Nat.add_assoc], by simp [Position.next]⟩
  · rw [Position.next, if_neg hc]
    exact ⟨hoffset, by simp [h.line, hc], by simp [h.column, hc, Nat.add_assoc]⟩

theorem isBehind_skip (before : List Char) : (origin.skip before).IsBehind before := by
  induction before using List.reverseRecOn with
  | nil => exact isBehind_origin
  | append_singleton before c ih =>
    rw [skip_append]
    exact ih.next c

end Position

namespace Excerpt

variable {text e : Excerpt} {p : Position}

theorem contains_of_mem_siblingsFrom {start : Position} {cs : List Char} {es : List Excerpt}
    (h : siblingsFrom start cs = .ok es) (he : e ∈ es) : Contains ⟨start, cs⟩ e := by
  fun_induction siblingsFrom start cs generalizing es with
  | case1 => simp_all
  | case2 start c cs hgap ih =>
    obtain ⟨before, after, hchars, hstart⟩ := ih h he
    exact ⟨c :: before, after, congrArg (c :: ·) hchars, hstart⟩
  | case3 => simp at h
  | case4 start cs group rest hgap hclose hlt ih =>
    obtain ⟨others, hrec, hothers⟩ := bind_eq_ok.1 h
    obtain rfl := pure_eq_ok.1 hothers
    have happend : group ++ rest = '(' :: cs := (closeGroup_append hclose).1
    rcases List.mem_cons.1 he with rfl | hmem
    · exact ⟨[], rest, happend.symm, rfl⟩
    · obtain ⟨before, after, hchars, hstart⟩ := ih hrec hmem
      refine ⟨group ++ before, after, ?_, by rw [hstart, Position.skip_append]⟩
      rw [List.append_assoc, ← hchars]
      exact happend.symm
  | case5 => simp at h

theorem hasPlace_of_siblingsFrom {start : Position} {cs : List Char} {err : Error}
    (h : siblingsFrom start cs = .error err) :
    ∃ p fault, HasPlace ⟨start, cs⟩ p ∧ err = p.fault fault := by
  -- the place is where the scan stands, so the characters before it are what the scan has passed
  suffices hplace : ∃ before after fault, cs = before ++ after ∧
      err = (start.skip before).fault fault by
    obtain ⟨before, after, fault, hchars, rfl⟩ := hplace
    exact ⟨_, fault, hasPlace_skip hchars, rfl⟩
  fun_induction siblingsFrom start cs with
  | case1 => simp at h
  | case2 start c cs hgap ih =>
    obtain ⟨before, after, fault, rfl, rfl⟩ := ih h
    exact ⟨c :: before, after, fault, rfl, rfl⟩
  | case3 start cs => exact ⟨[], '(' :: cs, .unclosed, rfl, (Except.error.inj h).symm⟩
  | case4 start cs group rest hgap hclose hlt ih =>
    obtain ⟨before, after, fault, rfl, rfl⟩ := ih (bind_pure_eq_error.1 h)
    refine ⟨group ++ before, after, fault, ?_, by rw [Position.skip_append]⟩
    rw [List.append_assoc, (closeGroup_append hclose).1]
  | case5 start c cs => exact ⟨[], c :: cs, _, rfl, (Except.error.inj h).symm⟩

theorem contains_of_single (h : text.single = .ok e) : text.Contains e := by
  obtain ⟨es, hs, h⟩ := bind_eq_ok.1 h
  split at h
  · simp at h
  · obtain rfl := pure_eq_ok.1 h
    exact contains_of_mem_siblingsFrom hs List.mem_cons_self
  · simp at h

theorem hasPlace_of_single {err : Error} (h : text.single = .error err) :
    ∃ p fault, text.HasPlace p ∧ err = p.fault fault := by
  rw [single] at h
  cases hs : text.siblings with
  | error first =>
    obtain rfl : first = err := by simpa [hs, bind, Except.bind] using h
    exact hasPlace_of_siblingsFrom hs
  | ok es =>
    rw [hs, ok_bind] at h
    split at h
    · exact ⟨text.start, _, hasPlace_skip (List.nil_append _).symm, (Except.error.inj h).symm⟩
    · simp [pure, Except.pure] at h
    · rename_i first second rest
      have hsecond := contains_of_mem_siblingsFrom hs (List.mem_cons_of_mem first List.mem_cons_self)
      exact ⟨second.start, _, hsecond.hasPlace_start, (Except.error.inj h).symm⟩

/-- The expression that a text is, and what it is split into any number of times. -/
inductive Reaches (text : Excerpt) : Excerpt → Prop
  | whole {e : Excerpt} (h : text.single = .ok e) : Reaches text e
  | item {e : Excerpt} {items : List Item} {item : Item} (he : Reaches text e)
      (h : e.items = .ok items) (hitem : item ∈ items) : Reaches text item.excerpt

/-- The errors that refuse a text: something is wrong where one of its parts begins, or the text or
a part of it cannot be split. -/
inductive Refuses (text : Excerpt) : Error → Prop
  | whole {err : Error} (h : text.single = .error err) : Refuses text err
  | items {e : Excerpt} {err : Error} (he : text.Reaches e) (h : e.items = .error err) :
      Refuses text err
  | here {e : Excerpt} (he : text.Reaches e) (fault : Fault) : Refuses text (e.fault fault)

theorem Reaches.contains (h : text.Reaches e) : text.Contains e := by
  induction h with
  | whole h => exact contains_of_single h
  | item _ h hitem ih => exact ih.trans (contains_of_mem_items h hitem)

theorem Refuses.hasPlace {err : Error} (h : text.Refuses err) :
    ∃ p fault, text.HasPlace p ∧ err = p.fault fault := by
  cases h with
  | whole h => exact hasPlace_of_single h
  | items he h =>
    obtain ⟨p, fault, hp, rfl⟩ := hasPlace_of_items_eq_error h
    exact ⟨p, fault, he.contains.hasPlace hp, rfl⟩
  | @here e he fault => exact ⟨e.start, fault, he.contains.hasPlace_start, rfl⟩

end Excerpt

end Pddl
