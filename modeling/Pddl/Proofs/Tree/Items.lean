import Pddl.Proofs.Success
import Pddl.Proofs.Text.Lines
import Pddl.Tree.Scan

namespace Pddl.Excerpt

open Text

theorem itemsFrom_gap {start : Position} {c : Char} {cs : List Char} (h : isGap c = true) :
    itemsFrom start (c :: cs) = itemsFrom (start.next c) cs := by
  rw [itemsFrom, if_pos h]

theorem itemsFrom_group {start : Position} {cs group rest : List Char}
    (h : closeGroup 0 ('(' :: cs) = some (group, rest)) :
    itemsFrom start ('(' :: cs) =
      (itemsFrom (start.skip group) rest).map (.group ⟨start, group⟩ :: ·) := by
  rw [itemsFrom, if_neg (by decide), if_pos rfl]
  split
  · simp_all
  · rename_i heq
    obtain ⟨rfl, rfl⟩ : group = _ ∧ rest = _ := by simpa [h] using heq
    rfl

theorem itemsFrom_unclosed {start : Position} {cs : List Char}
    (h : closeGroup 0 ('(' :: cs) = none) :
    itemsFrom start ('(' :: cs) = .error (start.fault .unclosed) := by
  rw [itemsFrom, if_neg (by decide), if_pos rfl]
  split <;> simp_all

theorem itemsFrom_word {start : Position} {c : Char} {word cs : List Char}
    (hword : ∀ d ∈ c :: word, isWordChar d = true) (hend : Stops isWordChar cs) :
    itemsFrom start (c :: word ++ cs) =
      (itemsFrom (start.skip (c :: word)) cs).map (.word ⟨start, c :: word⟩ :: ·) := by
  have hc := hword c List.mem_cons_self
  have hgap : ¬isGap c = true := fun hg => by simp [isWordChar_of_isGap c hg] at hc
  have hopen : c ≠ '(' := by rintro rfl; exact absurd hc (by decide)
  have hclose : c ≠ ')' := by rintro rfl; exact absurd hc (by decide)
  have htail : ∀ d ∈ word, isWordChar d = true := fun d hd => hword d (List.mem_cons_of_mem _ hd)
  rw [List.cons_append, itemsFrom, if_neg hgap, if_neg hopen, if_neg hclose, if_pos hc]
  simp only [hend.takeWhile_run htail, hend.dropWhile_run htail]
  rfl

theorem items_parenthesized (start : Position) (inner : List Char) :
    Excerpt.items ⟨start, '(' :: (inner ++ [')'])⟩ = itemsFrom (start.next '(') inner := by
  simp [Excerpt.items, inside?]

theorem items_cases (e : Excerpt) :
    (∃ inner, e.chars = '(' :: (inner ++ [')'])) ∨
      e.items = .error (e.fault (.expected "a parenthesized expression")) := by
  unfold Excerpt.items inside?
  split
  · exact Or.inr rfl
  · rename_i inside hinside
    split at hinside
    · rename_i cs hchars
      split at hinside
      · rename_i hlast
        obtain ⟨inner, rfl⟩ := List.getLast?_eq_some_iff.1 hlast
        exact Or.inl ⟨inner, hchars⟩
      · simp at hinside
    · simp at hinside

theorem items_eq_ok {e : Excerpt} {items : List Item} :
    e.items = .ok items ↔ ∃ inner, e.chars = '(' :: (inner ++ [')']) ∧
      itemsFrom (e.start.next '(') inner = .ok items := by
  obtain ⟨start, chars⟩ := e
  constructor
  · intro h
    obtain ⟨inner, hchars⟩ := (items_cases ⟨start, chars⟩).resolve_right (by simp [h])
    obtain rfl : chars = '(' :: (inner ++ [')']) := hchars
    exact ⟨inner, rfl, items_parenthesized start inner ▸ h⟩
  · rintro ⟨inner, hchars, h⟩
    obtain rfl : chars = '(' :: (inner ++ [')']) := hchars
    exact (items_parenthesized start inner).trans h

theorem siblingsFrom_group {start : Position} {cs group rest : List Char}
    (h : closeGroup 0 ('(' :: cs) = some (group, rest)) :
    siblingsFrom start ('(' :: cs) =
      (siblingsFrom (start.skip group) rest).map (⟨start, group⟩ :: ·) := by
  rw [siblingsFrom, if_neg (by decide), if_pos rfl]
  split
  · simp_all
  · rename_i heq
    obtain ⟨rfl, rfl⟩ : group = _ ∧ rest = _ := by simpa [h] using heq
    rfl

theorem eq_word_of_itemsFrom {start : Position} {c : Char} {cs : List Char} {items : List Item}
    (hgap : isGap c = false) (hopen : c ≠ '(') (h : itemsFrom start (c :: cs) = .ok items) :
    ∃ word others, items = .word word :: others := by
  rw [itemsFrom, if_neg (by simp [hgap]), if_neg hopen] at h
  split at h
  · simp at h
  · split at h
    · obtain ⟨others, -, hitems⟩ := bind_eq_ok.1 h
      exact ⟨_, others, (pure_eq_ok.1 hitems).symm⟩
    · simp at h

/-- The expressions of a text are its items where all items are groups. The two are looked for in
the same way, from wherever the text begins. -/
theorem siblingsFrom_iff_itemsFrom {cs : List Char} (start place : Position)
    {texts : List (List Char)} :
    (∃ es, siblingsFrom start cs = .ok es ∧ es.map chars = texts) ↔
      ∃ es : List Excerpt, itemsFrom place cs = .ok (es.map .group) ∧ es.map chars = texts := by
  fun_induction siblingsFrom start cs generalizing place texts with
  | case1 start =>
    rw [itemsFrom]
    constructor
    · rintro ⟨es, hes, htexts⟩
      obtain rfl := Except.ok.inj hes
      exact ⟨[], rfl, htexts⟩
    · rintro ⟨es, hes, htexts⟩
      obtain rfl := List.map_eq_nil_iff.1 (Except.ok.inj hes).symm
      exact ⟨[], rfl, htexts⟩
  | case2 start c cs hgap ih => rw [itemsFrom_gap hgap]; exact ih _
  | case3 start cs hgap hclose => simp [itemsFrom_unclosed hclose]
  | case4 start cs group rest hgap hclose hlt ih =>
    rw [itemsFrom_group hclose]
    constructor
    · rintro ⟨es, hes, rfl⟩
      obtain ⟨others, hrec, hothers⟩ := bind_eq_ok.1 hes
      obtain rfl := pure_eq_ok.1 hothers
      obtain ⟨gs, hitems, htexts⟩ := (ih (place.skip group)).1 ⟨others, hrec, rfl⟩
      exact ⟨⟨place, group⟩ :: gs, by rw [hitems]; rfl, by simp [htexts]⟩
    · rintro ⟨gs, hgs, rfl⟩
      obtain ⟨items, hitems, hcons⟩ := map_eq_ok.1 hgs
      obtain ⟨g, gs, rfl, hg, hrest⟩ := List.map_eq_cons_iff.1 hcons.symm
      obtain rfl := Item.group.inj hg
      obtain ⟨es, hes, htexts⟩ := (ih (place.skip group)).2 ⟨gs, hrest ▸ hitems, rfl⟩
      exact ⟨⟨start, group⟩ :: es, bind_eq_ok.2 ⟨es, hes, rfl⟩, by simp [htexts]⟩
  | case5 start c cs hgap hopen =>
    -- neither a gap nor a group: one reader refuses, and the other one finds a word
    constructor
    · rintro ⟨es, hes, -⟩
      simp at hes
    · rintro ⟨gs, hgs, -⟩
      obtain ⟨word, others, hword⟩ := eq_word_of_itemsFrom (by simpa using hgap) hopen hgs
      obtain ⟨g, -, -, hg, -⟩ := List.map_eq_cons_iff.1 hword
      simp at hg

end Pddl.Excerpt
