import Mathlib.Data.List.Forall2
import Pddl.Proofs.Text.Lower
import Pddl.Proofs.Tree.Items
import Pddl.Proofs.Tree.Shape
import Pddl.Text.Join

namespace Pddl

open Text

def IsPunctuation (c : Char) : Prop := c = ' ' ∨ c = '\t' ∨ c = '\n' ∨ c = '(' ∨ c = ')'

theorem IsPunctuation.lowerChar {c : Char} (h : IsPunctuation c) : lowerChar c = [c] := by
  rcases h with rfl | rfl | rfl | rfl | rfl <;> decide

theorem IsPunctuation.unbound {c : Char} (h : IsPunctuation c) : Unbound c := by
  rcases h with rfl | rfl | rfl | rfl | rfl <;> decide

theorem IsPunctuation.not_isWordChar {c : Char} (h : IsPunctuation c) : isWordChar c = false := by
  rcases h with rfl | rfl | rfl | rfl | rfl <;> decide

/-- Characters that are read as one word after preparation. -/
structure RawWord (raw : List Char) : Prop where
  nonempty : raw ≠ []
  isWordChar : ∀ c ∈ raw, Text.isWordChar c = true
  lowered : ∀ c ∈ raw, ∀ d ∈ lowerChar c, Text.isWordChar d = true
  noSigma : 'Σ' ∉ raw

theorem rawWord_iff {raw : List Char} :
    RawWord raw ↔
      (!raw.isEmpty && raw.all fun c =>
        Text.isWordChar c && (lowerChar c).all Text.isWordChar && c ≠ 'Σ') = true := by
  simp only [Bool.and_eq_true, Bool.not_eq_true', List.isEmpty_eq_false_iff, List.all_eq_true,
    decide_eq_true_eq]
  refine ⟨fun h => ⟨h.nonempty, fun c hc => ⟨⟨h.isWordChar c hc, h.lowered c hc⟩, ?_⟩⟩,
    fun h => ⟨h.1, fun c hc => (h.2 c hc).1.1, fun c hc => (h.2 c hc).1.2,
      fun hsigma => (h.2 _ hsigma).2 rfl⟩⟩
  exact fun heq => h.noSigma (heq ▸ hc)

instance (raw : List Char) : Decidable (RawWord raw) := decidable_of_iff _ rawWord_iff.symm

/-- The word that is read. -/
def spelled (raw : List Char) : String := String.ofList (raw.flatMap lowerChar)

/-- Whether a word that stands before `cs` ends there. -/
def Breaks (cs : List Char) : Prop := ∀ c ∈ cs.head?, IsPunctuation c

/-- `Spells cs ss` says that `cs` writes out the shapes `ss`, with gaps between words. -/
inductive Spells : List Char → List Shape → Prop where
  | nil : Spells [] []
  | gap {c : Char} {cs : List Char} {ss : List Shape} (hgap : c = ' ' ∨ c = '\t' ∨ c = '\n')
      (rest : Spells cs ss) : Spells (c :: cs) ss
  | word {raw cs : List Char} {ss : List Shape} (hraw : RawWord raw) (hbreak : Breaks cs)
      (rest : Spells cs ss) : Spells (raw ++ cs) (.word (spelled raw) :: ss)
  | list {inner cs : List Char} {ss rs : List Shape} (body : Spells inner ss)
      (rest : Spells cs rs) : Spells ('(' :: (inner ++ ')' :: cs)) (.list ss :: rs)

theorem breaks_nil : Breaks [] := by simp [Breaks]

theorem breaks_cons {c : Char} (cs : List Char) (h : IsPunctuation c) : Breaks (c :: cs) := by
  simpa [Breaks] using h

theorem Breaks.append {xs ys : List Char} (hx : Breaks xs) (hy : Breaks ys) : Breaks (xs ++ ys) := by
  cases xs with
  | nil => exact hy
  | cons x xs => exact hx

theorem RawWord.unbound {raw : List Char} (h : RawWord raw) {c : Char} (hc : c ∈ raw) :
    Unbound c := by
  have hword := h.isWordChar c hc
  refine ⟨?_, ?_, ?_, fun hsigma => h.noSigma (hsigma ▸ hc)⟩ <;> rintro rfl <;>
    exact absurd hword (by decide)

namespace Spells

theorem append {xs ys : List Char} {ss ts : List Shape} (hx : Spells xs ss) (hy : Spells ys ts)
    (hbreak : Breaks ys) : Spells (xs ++ ys) (ss ++ ts) := by
  induction hx with
  | nil => exact hy
  | gap hgap rest ih => exact .gap hgap ih
  | word hraw hend rest ih =>
    rw [List.append_assoc]
    exact .word hraw (hend.append hbreak) ih
  | list body rest _ ih =>
    rw [List.cons_append, List.append_assoc, List.cons_append]
    exact .list body ih

theorem single_word {raw : List Char} (h : RawWord raw) : Spells raw [.word (spelled raw)] := by
  simpa using Spells.word h breaks_nil .nil

theorem single_list {inner : List Char} {ss : List Shape} (h : Spells inner ss) :
    Spells ('(' :: (inner ++ [')'])) [.list ss] :=
  .list h .nil

theorem unbound {cs : List Char} {ss : List Shape} (h : Spells cs ss) : ∀ c ∈ cs, Unbound c := by
  induction h with
  | nil => simp
  | gap hgap _ ih =>
    have hpunct : IsPunctuation _ := hgap.imp_right (Or.imp_right Or.inl)
    simpa using ⟨hpunct.unbound, ih⟩
  | word hraw _ _ ih =>
    intro c hc
    rcases List.mem_append.1 hc with hc | hc
    · exact hraw.unbound hc
    · exact ih c hc
  | list _ _ ihbody ihrest =>
    intro c hc
    simp only [List.mem_cons, List.mem_append] at hc
    rcases hc with rfl | hc | rfl | hc
    · exact IsPunctuation.unbound (by simp [IsPunctuation])
    · exact ihbody c hc
    · exact IsPunctuation.unbound (by simp [IsPunctuation])
    · exact ihrest c hc

end Spells

theorem PlainWord.flatMap_lowerChar {w : String} (h : PlainWord w) :
    w.toList.flatMap lowerChar = w.toList :=
  flatMap_lowerChar_of_settled h.settled

theorem PlainWord.raw {w : String} (h : PlainWord w) : RawWord w.toList where
  nonempty := h.nonempty
  isWordChar := h.isWordChar
  lowered c hc d hd := by
    rw [(h.settled c hc).1, List.mem_singleton] at hd
    exact hd ▸ h.isWordChar c hc
  noSigma hsigma := (h.settled _ hsigma).2 rfl

theorem PlainWord.spelled {w : String} (h : PlainWord w) : spelled w.toList = w := by
  rw [Pddl.spelled, h.flatMap_lowerChar, String.ofList_toList]

namespace Spells

theorem plain {w : String} {cs : List Char} {ss : List Shape} (h : PlainWord w) (hbreak : Breaks cs)
    (rest : Spells cs ss) : Spells (w.toList ++ cs) (.word w :: ss) := by
  simpa only [h.spelled] using Spells.word h.raw hbreak rest

theorem single_plain {w : String} (h : PlainWord w) : Spells w.toList [.word w] := by
  simpa using Spells.plain h breaks_nil .nil

theorem append_blank {xs ys : List Char} {ss ts : List Shape} (hx : Spells xs ss)
    (hy : Spells ys ts) : Spells (xs ++ ' ' :: ys) (ss ++ ts) :=
  hx.append (.gap (Or.inl rfl) hy) (breaks_cons _ (Or.inl rfl))

theorem words {texts : List String} {shapes : List (List Shape)}
    (h : List.Forall₂ (fun s ss => Spells s.toList ss) texts shapes) :
    Spells (Text.words texts).toList shapes.flatten := by
  induction h with
  | nil => exact .nil
  | @cons s ss texts shapes hs hrest ih =>
    cases texts with
    | nil =>
      cases hrest
      simpa [Text.words, joinWith] using hs
    | cons t texts =>
      have hjoin : (Text.words (s :: t :: texts)).toList =
          s.toList ++ ' ' :: (Text.words (t :: texts)).toList := by
        simp [Text.words, joinWith]
      rw [hjoin, List.flatten_cons]
      exact hs.append_blank ih

theorem plain_words {ws : List String} (h : ∀ w ∈ ws, PlainWord w) :
    Spells (Text.words ws).toList (ws.map .word) := by
  rw [List.map_eq_flatMap, List.flatMap_def]
  refine words ?_
  rw [List.forall₂_map_right_iff, List.forall₂_same]
  exact fun w hw => single_plain (h w hw)

theorem trailing {texts : List String} {shapes : List (List Shape)}
    (h : List.Forall₂ (fun s ss => Spells s.toList ss) texts shapes) :
    Spells (Text.trailing texts).toList shapes.flatten ∧ Breaks (Text.trailing texts).toList := by
  induction h with
  | nil => exact ⟨.nil, breaks_nil⟩
  | @cons s ss texts shapes hs _ ih =>
    have hjoin : (Text.trailing (s :: texts)).toList =
        ' ' :: (s.toList ++ (Text.trailing texts).toList) := by
      simp [Text.trailing]
    rw [hjoin, List.flatten_cons]
    exact ⟨.gap (Or.inl rfl) (hs.append ih.1 ih.2), breaks_cons _ (Or.inl rfl)⟩

end Spells

def IsSpace (c : Char) : Prop := c = ' ' ∨ c = '\t' ∨ c = '\n'

theorem IsSpace.isPunctuation {c : Char} (h : IsSpace c) : IsPunctuation c :=
  h.imp_right (Or.imp_right Or.inl)

theorem Spells.spaces {pre cs : List Char} {ss : List Shape} (hpre : ∀ c ∈ pre, IsSpace c)
    (h : Spells cs ss) : Spells (pre ++ cs) ss := by
  induction pre with
  | nil => exact h
  | cons c pre ih =>
    rw [List.forall_mem_cons] at hpre
    exact .gap hpre.1 (ih hpre.2)

theorem breaks_spaces {pre : List Char} (hpre : ∀ c ∈ pre, IsSpace c) : Breaks pre := by
  cases pre with
  | nil => exact breaks_nil
  | cons c pre => exact breaks_cons pre (hpre c List.mem_cons_self).isPunctuation

/-- A part of a text that spells shapes and that a word before it ends at. -/
structure Segment (s : String) (ss : List Shape) : Prop where
  spells : Spells s.toList ss
  breaks : Breaks s.toList

namespace Segment

theorem empty : Segment "" [] := ⟨.nil, breaks_nil⟩

theorem append {s t : String} {ss ts : List Shape} (hs : Segment s ss) (ht : Segment t ts) :
    Segment (s ++ t) (ss ++ ts) := by
  constructor <;> rw [String.toList_append]
  · exact hs.spells.append ht.spells ht.breaks
  · exact hs.breaks.append ht.breaks

theorem concat {texts : List String} {shapes : List (List Shape)}
    (h : List.Forall₂ Segment texts shapes) : Segment (Text.concat texts) shapes.flatten := by
  induction h with
  | nil => exact empty
  | cons hs _ ih => exact hs.append ih

theorem of_spaces {t : String} {ss : List Shape} (pre cs post : List Char)
    (ht : t.toList = pre ++ (cs ++ post)) (hne : pre ≠ []) (hpre : ∀ c ∈ pre, IsSpace c)
    (hpost : ∀ c ∈ post, IsSpace c) (h : Spells cs ss) : Segment t ss := by
  have hspells : Spells (cs ++ post) ss := by
    simpa using h.append (Spells.spaces hpost .nil) (by simpa using breaks_spaces hpost)
  constructor <;> rw [ht]
  · exact hspells.spaces hpre
  · obtain ⟨c, rest, rfl⟩ := List.exists_cons_of_ne_nil hne
    exact breaks_cons _ (hpre c List.mem_cons_self).isPunctuation

theorem lines {α : Type} {text : α → String} {shapes : α → List Shape} {as : List α}
    (indent : String) (hne : indent.toList ≠ []) (hindent : ∀ c ∈ indent.toList, IsSpace c)
    (h : ∀ a ∈ as, Spells (text a).toList (shapes a)) :
    Segment (Text.concat (as.map fun a => indent ++ text a ++ "\n")) (as.flatMap shapes) := by
  rw [List.flatMap_def]
  refine concat (forall₂_map_map fun a ha => ?_)
  exact of_spaces indent.toList _ ['\n'] (by simp) hne hindent (by simp [IsSpace]) (h a ha)

theorem of_line {t head body : String} {ss : List Shape}
    (ht : t.toList = '\t' :: '(' :: (head.toList ++ ' ' :: (body.toList ++ [')', '\n'])))
    (hhead : PlainWord head) (h : Spells body.toList ss) :
    Segment t [.list (.word head :: ss)] := by
  have hbreak : Breaks (' ' :: body.toList) := breaks_cons _ (Or.inl rfl)
  have hlist := (Spells.plain hhead hbreak (.gap (Or.inl rfl) h)).single_list
  exact of_spaces ['\t'] _ ['\n'] (by simp [ht]) (List.cons_ne_nil _ _) (by simp [IsSpace])
    (by simp [IsSpace]) hlist

theorem of_block {t head body : String} {ss : List Shape}
    (ht : t.toList = '\t' :: '(' :: (head.toList ++ '\n' :: (body.toList ++ ['\t', ')', '\n'])))
    (hhead : PlainWord head) (h : Spells body.toList ss) :
    Segment t [.list (.word head :: ss)] := by
  have hbreak : Breaks ('\n' :: (body.toList ++ ['\t'])) :=
    breaks_cons _ (Or.inr (Or.inr (Or.inl rfl)))
  have hbody : Spells (body.toList ++ ['\t']) ss := by
    simpa using h.append (.gap (Or.inr (Or.inl rfl)) .nil) (breaks_cons [] (Or.inr (Or.inl rfl)))
  have hlist := (Spells.plain hhead hbreak (.gap (Or.inr (Or.inr rfl)) hbody)).single_list
  exact of_spaces ['\t'] _ ['\n'] (by simp [ht]) (List.cons_ne_nil _ _) (by simp [IsSpace])
    (by simp [IsSpace]) hlist

end Segment

theorem closeGroup_cons {depth : Nat} {c : Char} {cs : List Char} (hopen : c ≠ '(')
    (hclose : c ≠ ')') :
    closeGroup depth (c :: cs) = (closeGroup depth cs).map fun p => (c :: p.1, p.2) := by
  simp [closeGroup, hopen, hclose]

theorem closeGroup_append_words {depth : Nat} {ws cs : List Char}
    (h : ∀ c ∈ ws, isWordChar c = true) :
    closeGroup depth (ws ++ cs) = (closeGroup depth cs).map fun p => (ws ++ p.1, p.2) := by
  induction ws with
  | nil => simp
  | cons c ws ih =>
    have hc := h c List.mem_cons_self
    have hopen : c ≠ '(' := by rintro rfl; exact absurd hc (by decide)
    have hclose : c ≠ ')' := by rintro rfl; exact absurd hc (by decide)
    rw [List.cons_append, closeGroup_cons hopen hclose,
      ih fun d hd => h d (List.mem_cons_of_mem _ hd), Option.map_map]
    rfl

theorem RawWord.flatMap_ne_nil {raw : List Char} (h : RawWord raw) :
    raw.flatMap lowerChar ≠ [] := by
  cases raw with
  | nil => exact absurd rfl h.nonempty
  | cons c raw => simp [lowerChar_ne_nil]

theorem RawWord.isWordChar_lowered {raw : List Char} (h : RawWord raw) :
    ∀ c ∈ raw.flatMap lowerChar, Text.isWordChar c = true := by
  intro c hc
  obtain ⟨d, hd, hcd⟩ := List.mem_flatMap.1 hc
  exact h.lowered d hd c hcd

/-- Inside a group a text that spells something is passed over as a whole. -/
theorem Spells.closeGroup_append {inner cs : List Char} {ss : List Shape} (h : Spells inner ss)
    (depth : Nat) :
    closeGroup (depth + 1) (inner.flatMap lowerChar ++ cs) =
      (closeGroup (depth + 1) cs).map fun p => (inner.flatMap lowerChar ++ p.1, p.2) := by
  induction h generalizing depth cs with
  | nil => simp
  | @gap c _ _ hgap _ ih =>
    have hopen : c ≠ '(' := by rcases hgap with rfl | rfl | rfl <;> decide
    have hclose : c ≠ ')' := by rcases hgap with rfl | rfl | rfl <;> decide
    have hpunct : IsPunctuation c := hgap.imp_right (Or.imp_right Or.inl)
    rw [List.flatMap_cons, hpunct.lowerChar, List.singleton_append, List.cons_append,
      closeGroup_cons hopen hclose, ih, Option.map_map]
    rfl
  | word hraw _ _ ih =>
    rw [List.flatMap_append, List.append_assoc, closeGroup_append_words hraw.isWordChar_lowered, ih,
      Option.map_map]
    simp [Function.comp_def]
  | @list inner rest _ _ _ _ ihbody ihrest =>
    -- the inner list opens one more parenthesis and closes it again
    have hshut : ∀ ds, closeGroup (depth + 2) (')' :: ds) =
        (closeGroup (depth + 1) ds).map fun p => (')' :: p.1, p.2) := by
      intro ds
      simp [closeGroup]
    have hlower : ('(' :: (inner ++ ')' :: rest)).flatMap lowerChar =
        '(' :: (inner.flatMap lowerChar ++ ')' :: rest.flatMap lowerChar) := by
      simp [List.flatMap_append, show lowerChar '(' = ['('] from rfl,
        show lowerChar ')' = [')'] from rfl]
    rw [hlower, List.cons_append, closeGroup, if_pos rfl, List.append_assoc, ihbody,
      List.cons_append, hshut, ihrest]
    simp [Option.map_map, Function.comp_def]

theorem flatMap_lowerChar_group (inner cs : List Char) :
    ('(' :: (inner ++ ')' :: cs)).flatMap lowerChar =
      '(' :: (inner.flatMap lowerChar ++ ')' :: cs.flatMap lowerChar) := by
  simp only [List.flatMap_cons, List.flatMap_append, show lowerChar '(' = ['('] from rfl,
    show lowerChar ')' = [')'] from rfl, List.singleton_append]

theorem Spells.closeGroup {inner : List Char} {ss : List Shape} (h : Spells inner ss)
    (cs : List Char) :
    Pddl.closeGroup 0 ('(' :: (inner.flatMap lowerChar ++ ')' :: cs)) =
      some ('(' :: (inner.flatMap lowerChar ++ [')']), cs) := by
  have hshut : Pddl.closeGroup 1 (')' :: cs) = some ([')'], cs) := by simp [Pddl.closeGroup]
  rw [Pddl.closeGroup, if_pos rfl, h.closeGroup_append, hshut]
  rfl

namespace Excerpt

theorem tree_group {start : Position} {inner : List Char} {items : List Item}
    (h : itemsFrom (start.next '(') inner = .ok items) :
    (Excerpt.tree ⟨start, '(' :: (inner ++ [')'])⟩).shape =
      .list (items.map fun i => i.tree.shape) := by
  rw [tree_of_ok ((items_parenthesized start inner).trans h), Tree.shape_list, List.map_map]
  rfl

/-- A text that spells shapes is split into trees of these shapes. -/
theorem itemsFrom_of_spells {cs : List Char} {ss : List Shape} (h : Spells cs ss)
    (start : Position) :
    ∃ items, itemsFrom start (cs.flatMap lowerChar) = .ok items ∧
      items.map (fun i => i.tree.shape) = ss := by
  induction h generalizing start with
  | nil => exact ⟨[], by simp [itemsFrom], rfl⟩
  | @gap c cs ss hgap _ ih =>
    have hpunct : IsPunctuation c := hgap.imp_right (Or.imp_right Or.inl)
    have hisgap : isGap c = true := by rcases hgap with rfl | rfl | rfl <;> decide
    rw [List.flatMap_cons, hpunct.lowerChar, List.singleton_append, itemsFrom_gap hisgap]
    exact ih (start.next c)
  | @word raw cs ss hraw hbreak _ ih =>
    have hword := hraw.isWordChar_lowered
    -- the word must not go on behind its last character
    have hend : ∀ d ∈ (cs.flatMap lowerChar).head?, isWordChar d = false := by
      cases cs with
      | nil => simp
      | cons d ds =>
        have hd : IsPunctuation d := hbreak d rfl
        simpa [hd.lowerChar] using hd.not_isWordChar
    cases hlow : raw.flatMap lowerChar with
    | nil => exact absurd hlow hraw.flatMap_ne_nil
    | cons c word =>
      obtain ⟨items, hitems, hshapes⟩ := ih (start.skip (c :: word))
      rw [List.flatMap_append, hlow, itemsFrom_word (hlow ▸ hword) hend, hitems]
      refine ⟨_, rfl, ?_⟩
      simp [hshapes, spelled, hlow, text]
  | @list inner cs ss rs body _ ihbody ihrest =>
    obtain ⟨innerItems, hinner, hinnerShapes⟩ := ihbody (start.next '(')
    obtain ⟨items, hitems, hshapes⟩ :=
      ihrest (start.skip ('(' :: (inner.flatMap lowerChar ++ [')'])))
    rw [flatMap_lowerChar_group, itemsFrom_group (body.closeGroup _), hitems]
    refine ⟨_, rfl, ?_⟩
    simp only [List.map_cons, Item.tree_group, tree_group hinner, hinnerShapes, hshapes]

theorem single_group {cs : List Char}
    (h : closeGroup 0 ('(' :: cs) = some ('(' :: cs, [])) :
    Excerpt.single ⟨.origin, '(' :: cs⟩ = .ok ⟨.origin, '(' :: cs⟩ := by
  have hsiblings : siblingsFrom .origin ('(' :: cs) = .ok [⟨.origin, '(' :: cs⟩] := by
    rw [siblingsFrom_group h, siblingsFrom]
    rfl
  rw [single, siblings, hsiblings]
  rfl

end Excerpt

/-- The text is one list of the given shapes. -/
def Writes (s : String) (ss : List Shape) : Prop :=
  ∃ inner, s.toList = '(' :: (inner ++ [')']) ∧ Spells inner ss

namespace Writes

variable {s : String} {ss : List Shape}

theorem headed {raw rest : List Char} (hs : s.toList = '(' :: (raw ++ rest ++ [')']))
    (hraw : RawWord raw) (hbreak : Breaks rest) (h : Spells rest ss) :
    Writes s (.word (spelled raw) :: ss) :=
  ⟨raw ++ rest, hs, .word hraw hbreak h⟩

theorem of_head {head : String} {rest : List Char}
    (hs : s.toList = '(' :: (head.toList ++ rest ++ [')'])) (hhead : PlainWord head)
    (hbreak : Breaks rest) (h : Spells rest ss) : Writes s (.word head :: ss) := by
  have hwrites := Writes.headed hs hhead.raw hbreak h
  rwa [hhead.spelled] at hwrites

theorem of_keyword {head : String} {rest : List Char}
    (hs : s.toList = '(' :: (head.toList ++ ' ' :: rest ++ [')'])) (hhead : PlainWord head)
    (h : Spells rest ss) : Writes s (.word head :: ss) :=
  .of_head hs hhead (breaks_cons _ (Or.inl rfl)) (.gap (Or.inl rfl) h)

theorem spells (h : Writes s ss) : Spells s.toList [.list ss] := by
  obtain ⟨inner, hs, hinner⟩ := h
  rw [hs]
  exact hinner.single_list

theorem prepareChars {inner : List Char} (hs : s.toList = '(' :: (inner ++ [')']))
    (h : Spells inner ss) :
    prepareChars s.toList = '(' :: (inner.flatMap lowerChar ++ [')']) := by
  have hspells : Spells s.toList [.list ss] := hs ▸ h.single_list
  have hlast : s.toList.getLast? ≠ some '\n' := by
    rw [hs, ← List.cons_append, List.getLast?_concat]
    decide
  rw [prepareChars_eq_flatMap hspells.unbound hlast, hs, flatMap_lowerChar_group]
  rfl

theorem shape_prepare (h : Writes s ss) :
    (Excerpt.ofString (prepare s)).tree.shape = .list ss := by
  obtain ⟨inner, hs, hinner⟩ := h
  obtain ⟨items, hitems, hshapes⟩ :=
    Excerpt.itemsFrom_of_spells hinner (Position.origin.next '(')
  rw [Excerpt.ofString, prepare, String.toList_ofList, prepareChars hs hinner,
    Excerpt.tree_group hitems, hshapes]

theorem single_prepare (h : Writes s ss) :
    (Excerpt.ofString (prepare s)).single = .ok (Excerpt.ofString (prepare s)) := by
  obtain ⟨inner, hs, hinner⟩ := h
  rw [Excerpt.ofString, prepare, String.toList_ofList, prepareChars hs hinner]
  exact Excerpt.single_group (hinner.closeGroup [])

end Writes

end Pddl
