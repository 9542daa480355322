import Mathlib.Data.List.Forall2
import Pddl.Proofs.Success
import Pddl.Proofs.Text.Settled
import Pddl.Tree.Basic

namespace Pddl

open Text

/-- The words of a tree and their nesting. -/
inductive Shape where
  | word (text : String)
  | list (items : List Shape)
  | broken
  deriving Repr

namespace Shape

mutual

def decEq : (s r : Shape) → Decidable (s = r)
  | .word v, .word w => decidable_of_iff (v = w) (by simp)
  | .list ss, .list rs =>
    have := decEqAll ss rs
    decidable_of_iff (ss = rs) (by simp)
  | .broken, .broken => isTrue rfl
  | .word _, .list _ => isFalse (by simp)
  | .word _, .broken => isFalse (by simp)
  | .list _, .word _ => isFalse (by simp)
  | .list _, .broken => isFalse (by simp)
  | .broken, .word _ => isFalse (by simp)
  | .broken, .list _ => isFalse (by simp)

def decEqAll : (ss rs : List Shape) → Decidable (ss = rs)
  | [], [] => isTrue rfl
  | [], _ :: _ => isFalse (by simp)
  | _ :: _, [] => isFalse (by simp)
  | s :: ss, r :: rs =>
    have := decEq s r
    have := decEqAll ss rs
    decidable_of_iff (s = r ∧ ss = rs) (by simp)

end

instance : DecidableEq Shape := decEq

end Shape

namespace Tree

mutual

def shape : Tree → Shape
  | .word e => .word e.text
  | .list _ items => .list (shapes items)
  | .broken _ _ => .broken

def shapes : List Tree → List Shape
  | [] => []
  | t :: ts => t.shape :: shapes ts

end

theorem shapes_eq_map (ts : List Tree) : shapes ts = ts.map shape := by
  induction ts with
  | nil => rfl
  | cons t ts ih => rw [shapes, ih, List.map_cons]

@[simp] theorem shape_word (e : Excerpt) : (Tree.word e).shape = .word e.text := by
  rw [shape]

@[simp] theorem shape_list (e : Excerpt) (items : List Tree) :
    (Tree.list e items).shape = .list (items.map shape) := by
  rw [shape, shapes_eq_map]

@[simp] theorem shape_broken (e : Excerpt) (err : Error) : (Tree.broken e err).shape = .broken := by
  rw [shape]

theorem induct {P : Tree → Prop} (word : ∀ e, P (.word e)) (broken : ∀ e err, P (.broken e err))
    (list : ∀ e items, (∀ t ∈ items, P t) → P (.list e items)) : ∀ t, P t
  | .word e => word e
  | .broken e err => broken e err
  | .list e items => list e items fun t _ => induct word broken list t

theorem eq_word_of_shape {t : Tree} {w : String} (h : t.shape = .word w) :
    ∃ e : Excerpt, t = .word e ∧ e.text = w := by
  cases t with
  | word e => exact ⟨e, rfl, by simpa using h⟩
  | list e items => simp at h
  | broken e err => simp at h

theorem eq_list_of_shape {t : Tree} {ss : List Shape} (h : t.shape = .list ss) :
    ∃ e items, t = .list e items ∧ items.map shape = ss := by
  cases t with
  | word e => simp at h
  | list e items => exact ⟨e, items, rfl, by simpa using h⟩
  | broken e err => simp at h

theorem eq_cons_of_shape {t : Tree} {s : Shape} {ss : List Shape} (h : t.shape = .list (s :: ss)) :
    ∃ e head args, t = .list e (head :: args) ∧ head.shape = s ∧ args.map shape = ss := by
  obtain ⟨e, items, rfl, hitems⟩ := eq_list_of_shape h
  obtain ⟨head, args, rfl, hhead, hargs⟩ := List.map_eq_cons_iff.1 hitems
  exact ⟨e, head, args, rfl, hhead, hargs⟩

theorem eq_headed_of_shape {t : Tree} {word : String} {ss : List Shape}
    (h : t.shape = .list (.word word :: ss)) :
    ∃ e w args, t = .list e (.word w :: args) ∧ w.text = word ∧ args.map shape = ss := by
  obtain ⟨e, head, args, rfl, hhead, hargs⟩ := eq_cons_of_shape h
  obtain ⟨w, rfl, hw⟩ := eq_word_of_shape hhead
  exact ⟨e, w, args, rfl, hw, hargs⟩

theorem eq_singleton_of_shapes {ts : List Tree} {s : Shape} (h : ts.map shape = [s]) :
    ∃ t, ts = [t] ∧ t.shape = s := by
  obtain ⟨t, rest, rfl, ht, hnil⟩ := List.map_eq_cons_iff.1 h
  obtain rfl := List.map_eq_nil_iff.1 hnil
  exact ⟨t, rfl, ht⟩

theorem eq_pair_of_shapes {ts : List Tree} {s r : Shape} (h : ts.map shape = [s, r]) :
    ∃ left right, ts = [left, right] ∧ left.shape = s ∧ right.shape = r := by
  obtain ⟨left, rest, rfl, hleft, hrest⟩ := List.map_eq_cons_iff.1 h
  obtain ⟨right, rfl, hright⟩ := eq_singleton_of_shapes hrest
  exact ⟨left, right, rfl, hleft, hright⟩

theorem expectWord_eq_ok {what : String} {t : Tree} {e : Excerpt} :
    t.expectWord what = .ok e ↔ t = .word e := by
  cases t <;> simp [expectWord]

theorem expectItems_eq_ok {what : String} {t : Tree} {items : List Tree} :
    t.expectItems what = .ok items ↔ ∃ e, t = .list e items := by
  cases t <;> simp [expectItems]

theorem expectList_eq_ok {what : String} {t u : Tree} :
    t.expectList what = .ok u ↔ t.isList = true ∧ u = t := by
  cases t <;> simp [expectList, isList, eq_comm]

theorem isWord_iff_shape (t : Tree) (w : String) : t.isWord w = true ↔ t.shape = .word w := by
  cases t <;> simp [isWord]

theorem isList_iff_shape (t : Tree) : t.isList = true ↔ ∀ w, t.shape ≠ .word w := by
  cases t <;> simp [isList]

theorem isWord_congr {t u : Tree} (h : t.shape = u.shape) (w : String) :
    t.isWord w = u.isWord w := by
  rw [Bool.eq_iff_iff, isWord_iff_shape, isWord_iff_shape, h]

theorem isList_congr {t u : Tree} (h : t.shape = u.shape) : t.isList = u.isList := by
  rw [Bool.eq_iff_iff, isList_iff_shape, isList_iff_shape, h]

theorem forall₂_shapes {α : Type} {R : Shape → α → Prop} {ts : List Tree} {xs : List α} :
    List.Forall₂ (fun t x => R t.shape x) ts xs ↔
      (ts.map shape).length = xs.length ∧ ∀ s x, (s, x) ∈ (ts.map shape).zip xs → R s x := by
  rw [← List.forall₂_map_left_iff (R := R), List.forall₂_iff_zip]

end Tree

/-- A word as it can stand in a prepared text. -/
structure PlainWord (w : String) : Prop where
  nonempty : w.toList ≠ []
  isWordChar : ∀ c ∈ w.toList, isWordChar c = true
  settled : ∀ c ∈ w.toList, Settled c

theorem plainWord_iff {w : String} :
    PlainWord w ↔
      (!w.toList.isEmpty && w.toList.all fun c => isWordChar c && Settled c) = true := by
  simp only [Bool.and_eq_true, Bool.not_eq_true', List.isEmpty_eq_false_iff, List.all_eq_true,
    decide_eq_true_eq]
  exact ⟨fun h => ⟨h.nonempty, fun c hc => ⟨h.isWordChar c hc, h.settled c hc⟩⟩,
    fun h => ⟨h.1, fun c hc => (h.2 c hc).1, fun c hc => (h.2 c hc).2⟩⟩

theorem PlainWord.append {v w : String} (hv : PlainWord v) (hw : PlainWord w) :
    PlainWord (v ++ w) := by
  refine ⟨?_, ?_, ?_⟩ <;> rw [String.toList_append]
  · exact List.append_ne_nil_of_left_ne_nil hv.nonempty _
  · exact List.forall_mem_append.2 ⟨hv.isWordChar, hw.isWordChar⟩
  · exact List.forall_mem_append.2 ⟨hv.settled, hw.settled⟩

instance (w : String) : Decidable (PlainWord w) := decidable_of_iff _ plainWord_iff.symm

namespace Shape

mutual

def words : Shape → List String
  | .word w => [w]
  | .list items => wordsAll items
  | .broken => []

def wordsAll : List Shape → List String
  | [] => []
  | s :: ss => s.words ++ wordsAll ss

end

theorem wordsAll_eq_flatMap (ss : List Shape) : wordsAll ss = ss.flatMap words := by
  induction ss with
  | nil => rfl
  | cons s ss ih => rw [wordsAll, ih, List.flatMap_cons]

def Plain (s : Shape) : Prop := ∀ w ∈ s.words, PlainWord w

@[simp] theorem plain_word (w : String) : (Shape.word w).Plain ↔ PlainWord w := by
  simp [Plain, words]

@[simp] theorem plain_list (ss : List Shape) : (Shape.list ss).Plain ↔ ∀ s ∈ ss, s.Plain := by
  simp only [Plain, words, wordsAll_eq_flatMap, List.mem_flatMap]
  constructor
  · intro h s hs w hw
    exact h w ⟨s, hs, hw⟩
  · rintro h w ⟨s, hs, hw⟩
    exact h s hs w hw

@[simp] theorem plain_broken : Shape.broken.Plain := by
  simp [Plain, words]

end Shape

theorem Tree.plain_of_list {e : Excerpt} {items : List Tree} (h : (Tree.list e items).shape.Plain) :
    ∀ t ∈ items, t.shape.Plain := by
  rw [Tree.shape_list, Shape.plain_list] at h
  exact List.forall_mem_map.1 h

namespace Item

def IsProper : Item → Prop
  | .word e => e.chars ≠ [] ∧ ∀ c ∈ e.chars, isWordChar c = true
  | .group _ => True

@[simp] theorem tree_word (e : Excerpt) : (Item.word e).tree = .word e := rfl

@[simp] theorem tree_group (e : Excerpt) : (Item.group e).tree = e.tree := rfl

end Item

namespace Excerpt

theorem mem_of_closeGroup {depth : Nat} {cs group rest : List Char}
    (h : closeGroup depth cs = some (group, rest)) {c : Char} (hc : c ∈ group ∨ c ∈ rest) :
    c ∈ cs := by
  rw [← (closeGroup_append h).1, List.mem_append]
  exact hc

theorem itemsFrom_chars {start : Position} {cs : List Char} {items : List Item}
    (h : itemsFrom start cs = .ok items) {item : Item} (hitem : item ∈ items) :
    item.IsProper ∧ ∀ c ∈ item.excerpt.chars, c ∈ cs := by
  fun_induction itemsFrom start cs generalizing items with
  | case1 => simp_all
  | case2 start c tail hgap ih =>
    obtain ⟨hproper, hsub⟩ := ih h hitem
    exact ⟨hproper, fun d hd => List.mem_cons_of_mem _ (hsub d hd)⟩
  | case3 => simp at h
  | case4 start tail group rest hgap hclose hlt ih =>
    obtain ⟨others, hrec, hothers⟩ := bind_eq_ok.1 h
    obtain rfl := pure_eq_ok.1 hothers
    rcases List.mem_cons.1 hitem with rfl | hmem
    · exact ⟨trivial, fun d hd => mem_of_closeGroup hclose (Or.inl hd)⟩
    · obtain ⟨hproper, hsub⟩ := ih hrec hmem
      exact ⟨hproper, fun d hd => mem_of_closeGroup hclose (Or.inr (hsub d hd))⟩
  | case5 => simp at h
  | case6 start c tail hgap hopen hclose hword hlen word =>
    rename_i ih
    obtain ⟨others, hrec, hothers⟩ := bind_eq_ok.1 h
    obtain rfl := pure_eq_ok.1 hothers
    rcases List.mem_cons.1 hitem with rfl | hmem
    · refine ⟨⟨List.cons_ne_nil _ _, ?_⟩, ?_⟩
      · intro d hd
        rcases List.mem_cons.1 hd with rfl | hd
        · exact hword
        · exact List.all_eq_true.1 List.all_takeWhile d hd
      · intro d hd
        rcases List.mem_cons.1 hd with rfl | hd
        · exact List.mem_cons_self
        · exact List.mem_cons_of_mem _ ((List.takeWhile_sublist _).subset hd)
    · obtain ⟨hproper, hsub⟩ := ih hrec hmem
      refine ⟨hproper, fun d hd => List.mem_cons_of_mem _ ?_⟩
      exact (List.dropWhile_sublist _).subset (hsub d hd)
  | case7 => simp at h

theorem inside?_chars {e inner : Excerpt} (h : e.inside? = some inner) {c : Char}
    (hc : c ∈ inner.chars) : c ∈ e.chars := by
  unfold inside? at h
  split at h
  · rename_i cs heq
    split at h
    · simp only [Option.some.injEq] at h
      subst h
      rw [heq]
      exact List.mem_cons_of_mem _ (List.dropLast_subset _ hc)
    · simp at h
  · simp at h

theorem items_chars {e : Excerpt} {items : List Item} (h : e.items = .ok items) {item : Item}
    (hitem : item ∈ items) : item.IsProper ∧ ∀ c ∈ item.excerpt.chars, c ∈ e.chars := by
  unfold Excerpt.items at h
  split at h
  · simp at h
  · rename_i inner hinner
    obtain ⟨hproper, hsub⟩ := itemsFrom_chars h hitem
    exact ⟨hproper, fun c hc => inside?_chars hinner (hsub c hc)⟩

/-- All words of a settled text are plain. -/
theorem plain_tree {e : Excerpt} (h : ∀ c ∈ e.chars, Settled c) : e.tree.shape.Plain := by
  induction hn : e.chars.length using Nat.strongRecOn generalizing e with
  | ind n ih =>
    cases hitems : e.items with
    | error err => simp [tree_of_error hitems]
    | ok items =>
      rw [tree_of_ok hitems]
      simp only [Tree.shape_list, Shape.plain_list, List.mem_map]
      rintro s ⟨t, ⟨item, hitem, rfl⟩, rfl⟩
      obtain ⟨hproper, hsub⟩ := items_chars hitems hitem
      have hsettled : ∀ c ∈ item.excerpt.chars, Settled c := fun c hc => h c (hsub c hc)
      cases item with
      | word w =>
        simp only [Item.tree, Tree.shape_word, Shape.plain_word]
        obtain ⟨hne, hword⟩ := hproper
        exact ⟨by simpa [text] using hne, by simpa [text] using hword,
          by simpa [text, Item.excerpt] using hsettled⟩
      | group g => exact ih _ (hn ▸ length_of_mem_items hitems hitem) hsettled rfl

theorem siblingsFrom_chars {start : Position} {cs : List Char} {es : List Excerpt}
    (h : siblingsFrom start cs = .ok es) {e : Excerpt} (he : e ∈ es) : ∀ c ∈ e.chars, c ∈ cs := by
  fun_induction siblingsFrom start cs generalizing es with
  | case1 => simp_all
  | case2 start c tail hgap ih => exact fun d hd => List.mem_cons_of_mem _ (ih h he d hd)
  | case3 => simp at h
  | case4 start tail group rest hgap hclose hlt ih =>
    obtain ⟨others, hrec, hothers⟩ := bind_eq_ok.1 h
    obtain rfl := pure_eq_ok.1 hothers
    rcases List.mem_cons.1 he with rfl | hmem
    · exact fun d hd => mem_of_closeGroup hclose (Or.inl hd)
    · exact fun d hd => mem_of_closeGroup hclose (Or.inr (ih hrec hmem d hd))
  | case5 => simp at h

theorem single_chars {e expression : Excerpt} (h : e.single = .ok expression) :
    ∀ c ∈ expression.chars, c ∈ e.chars := by
  obtain ⟨es, hs, h⟩ := bind_eq_ok.1 h
  split at h
  · simp at h
  · obtain rfl := pure_eq_ok.1 h
    exact siblingsFrom_chars hs List.mem_cons_self
  · simp at h

end Excerpt

end Pddl
