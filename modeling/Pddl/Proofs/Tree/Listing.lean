import Mathlib.Data.List.Chain
import Pddl.Proofs.Tree.Balance
import Pddl.Tree.Basic

namespace Pddl

open Text

/-- What stands directly inside a list. -/
inductive Piece where
  | word (chars : List Char)
  | group (chars : List Char)

namespace Piece

def chars : Piece → List Char
  | .word cs => cs
  | .group cs => cs

def isWord : Piece → Bool
  | .word _ => true
  | .group _ => false

/-- Words are not empty and hold no delimiter; a group ends where its depth comes back to zero. -/
def IsProper : Piece → Prop
  | .word cs => cs ≠ [] ∧ ∀ c ∈ cs, isWordChar c = true
  | .group cs => IsGroup cs

theorem IsProper.exists_cons {piece : Piece} (h : piece.IsProper) :
    ∃ c cs, piece.chars = c :: cs ∧ isGap c = false ∧ isWordChar c = piece.isWord := by
  cases piece with
  | word cs =>
    obtain ⟨c, cs, rfl⟩ := List.exists_cons_of_ne_nil h.1
    have hword := h.2 c List.mem_cons_self
    refine ⟨c, cs, rfl, ?_, hword⟩
    by_contra hgap
    simp [isWordChar_of_isGap c (by simpa using hgap)] at hword
  | group cs =>
    obtain ⟨cs, rfl⟩ := List.head?_eq_some_iff.1 h.opening
    exact ⟨'(', cs, rfl, by decide, rfl⟩

def item (place : Position) : Piece → Item
  | .word cs => .word ⟨place, cs⟩
  | .group cs => .group ⟨place, cs⟩

@[simp] theorem excerpt_item (place : Position) (piece : Piece) :
    (piece.item place).excerpt = ⟨place, piece.chars⟩ := by
  cases piece <;> rfl

end Piece

/-- Pieces in order, each with the gap behind it. -/
abbrev Pieces := List (Piece × List Char)

namespace Pieces

def text (pieces : Pieces) : List Char := pieces.flatMap fun p => p.1.chars ++ p.2

def items (place : Position) : Pieces → List Item
  | [] => []
  | (piece, gap) :: pieces =>
    piece.item place :: items ((place.skip piece.chars).skip gap) pieces

/-- Pieces behind a first gap. Only characters of gaps stand between them, and at least one between
two words. -/
structure Spaced (lead : List Char) (pieces : Pieces) : Prop where
  lead : ∀ c ∈ lead, isGap c = true
  gaps : ∀ p ∈ pieces, ∀ c ∈ p.2, isGap c = true
  proper : ∀ p ∈ pieces, p.1.IsProper
  apart : pieces.IsChain fun p q => p.1.isWord = true → q.1.isWord = true → p.2 ≠ []

end Pieces

/-- A text in parentheses, taken apart. -/
@[ext] structure Listing (cs : List Char) where
  lead : List Char
  pieces : Pieces
  spaced : pieces.Spaced lead
  spelled : cs = '(' :: (lead ++ pieces.text ++ [')'])

def Listing.items {cs : List Char} (l : Listing cs) (start : Position) : List Item :=
  l.pieces.items ((start.next '(').skip l.lead)

namespace Pieces

theorem spaced_nil {lead : List Char} : Spaced lead [] ↔ ∀ c ∈ lead, isGap c = true :=
  ⟨Spaced.lead, fun h => ⟨h, by simp, by simp, .nil⟩⟩

theorem spaced_cons {lead gap : List Char} {piece : Piece} {pieces : Pieces} :
    Spaced lead ((piece, gap) :: pieces) ↔
      (∀ c ∈ lead, isGap c = true) ∧ piece.IsProper ∧
        (∀ q ∈ pieces.head?, piece.isWord = true → q.1.isWord = true → gap ≠ []) ∧
        Spaced gap pieces := by
  constructor
  · intro h
    obtain ⟨hgap, hgaps⟩ := List.forall_mem_cons.1 h.gaps
    obtain ⟨hpiece, hproper⟩ := List.forall_mem_cons.1 h.proper
    obtain ⟨hnext, hapart⟩ := List.isChain_cons.1 h.apart
    exact ⟨h.lead, hpiece, hnext, hgap, hgaps, hproper, hapart⟩
  · rintro ⟨hlead, hpiece, hnext, h⟩
    exact ⟨hlead, List.forall_mem_cons.2 ⟨h.lead, h.gaps⟩,
      List.forall_mem_cons.2 ⟨hpiece, h.proper⟩, List.isChain_cons.2 ⟨hnext, h.apart⟩⟩

theorem text_cons (piece : Piece) (gap : List Char) (pieces : Pieces) :
    text ((piece, gap) :: pieces) = piece.chars ++ (gap ++ text pieces) := by
  simp [text]

variable {lead gap : List Char} {pieces : Pieces}

theorem Spaced.stops_isGap (h : Spaced lead pieces) : Stops isGap pieces.text := by
  cases pieces with
  | nil => exact stops_nil isGap
  | cons p pieces =>
    obtain ⟨piece, gap⟩ := p
    obtain ⟨-, hproper, -, -⟩ := spaced_cons.1 h
    obtain ⟨c, cs, hchars, hgap, -⟩ := hproper.exists_cons
    rw [text_cons, hchars]
    exact stops_cons hgap _

theorem Spaced.stops_isWordChar {word : List Char}
    (h : Spaced lead ((.word word, gap) :: pieces)) : Stops isWordChar (gap ++ pieces.text) := by
  obtain ⟨-, -, hapart, hrest⟩ := spaced_cons.1 h
  cases gap with
  | cons c gap => exact stops_cons (isWordChar_of_isGap c (hrest.lead c List.mem_cons_self)) _
  | nil =>
    cases pieces with
    | nil => exact stops_nil isWordChar
    | cons p pieces =>
      obtain ⟨piece, gap⟩ := p
      obtain ⟨-, hproper, -, -⟩ := spaced_cons.1 hrest
      obtain ⟨c, cs, hchars, -, hword⟩ := hproper.exists_cons
      rw [List.nil_append, text_cons, hchars]
      refine stops_cons ?_ _
      by_contra hc
      exact hapart _ rfl rfl (by simpa [hword] using hc) rfl

end Pieces

namespace Excerpt

theorem itemsFrom_gaps {lead : List Char} (h : ∀ c ∈ lead, isGap c = true) (place : Position)
    (cs : List Char) : itemsFrom place (lead ++ cs) = itemsFrom (place.skip lead) cs := by
  induction lead generalizing place with
  | nil => rfl
  | cons c lead ih =>
    obtain ⟨hc, hlead⟩ := List.forall_mem_cons.1 h
    rw [List.cons_append, itemsFrom_gap hc, ih hlead]
    rfl

theorem itemsFrom_of_spaced {lead : List Char} {pieces : Pieces} (h : pieces.Spaced lead)
    (place : Position) :
    itemsFrom place (lead ++ pieces.text) = .ok (pieces.items (place.skip lead)) := by
  -- the first gap goes in front, so that the induction can be on the pieces
  rw [itemsFrom_gaps h.lead]
  induction pieces generalizing lead place with
  | nil => rw [Pieces.text, List.flatMap_nil, itemsFrom]; rfl
  | cons p pieces ih =>
    obtain ⟨piece, gap⟩ := p
    obtain ⟨-, hproper, -, hrest⟩ := Pieces.spaced_cons.1 h
    have hmore := ih hrest ((place.skip lead).skip piece.chars)
    rw [← itemsFrom_gaps hrest.lead] at hmore
    rw [Pieces.text_cons]
    cases piece with
    | word cs =>
      obtain ⟨c, cs, rfl⟩ := List.exists_cons_of_ne_nil hproper.1
      rw [Piece.chars, itemsFrom_word hproper.2 h.stops_isWordChar]
      rw [Piece.chars] at hmore
      rw [hmore]
      rfl
    | group cs =>
      obtain ⟨cs, rfl⟩ := List.head?_eq_some_iff.1 hproper.opening
      rw [Piece.chars] at hmore
      have hclose : closeGroup 0 ('(' :: (cs ++ (gap ++ Pieces.text pieces))) =
          some ('(' :: cs, gap ++ Pieces.text pieces) := closeGroup_of_isGroup hproper _
      rw [Piece.chars, List.cons_append, itemsFrom_group hclose, hmore]
      rfl

theorem exists_spaced {place : Position} {cs : List Char} {items : List Item}
    (h : itemsFrom place cs = .ok items) :
    ∃ (lead : List Char) (pieces : Pieces), pieces.Spaced lead ∧ cs = lead ++ pieces.text ∧
      items = pieces.items (place.skip lead) := by
  fun_induction itemsFrom place cs generalizing items with
  | case1 place =>
    obtain rfl := Except.ok.inj h
    exact ⟨[], [], Pieces.spaced_nil.2 (by simp), rfl, rfl⟩
  | case2 place c cs hgap ih =>
    obtain ⟨lead, pieces, hspaced, rfl, rfl⟩ := ih h
    exact ⟨c :: lead, pieces, ⟨List.forall_mem_cons.2 ⟨hgap, hspaced.lead⟩, hspaced.gaps,
      hspaced.proper, hspaced.apart⟩, rfl, rfl⟩
  | case3 => simp at h
  | case4 place cs group rest hgap hclose hlt ih =>
    obtain ⟨others, hrec, hothers⟩ := bind_eq_ok.1 h
    obtain rfl := pure_eq_ok.1 hothers
    obtain ⟨gap, pieces, hspaced, rfl, rfl⟩ := ih hrec
    obtain ⟨hgroup, happend⟩ := (closeGroup_eq_some_iff rfl).1 hclose
    refine ⟨[], (.group group, gap) :: pieces,
      Pieces.spaced_cons.2 ⟨by simp, hgroup, ?_, hspaced⟩, ?_, rfl⟩
    · exact fun _ _ hword => absurd hword (by simp [Piece.isWord])
    · rw [List.nil_append, Pieces.text_cons, Piece.chars, happend]
  | case5 => simp at h
  | case6 place c cs hgap hopen hclose hword hlen word =>
    rename_i ih
    obtain ⟨others, hrec, hothers⟩ := bind_eq_ok.1 h
    obtain rfl := pure_eq_ok.1 hothers
    obtain ⟨gap, pieces, hspaced, hdrop, rfl⟩ := ih hrec
    have hproper : ∀ d ∈ word, isWordChar d = true :=
      List.forall_mem_cons.2 ⟨hword, List.all_eq_true.1 List.all_takeWhile⟩
    refine ⟨[], (.word word, gap) :: pieces,
      Pieces.spaced_cons.2 ⟨by simp, ⟨List.cons_ne_nil _ _, hproper⟩, ?_, hspaced⟩, ?_, rfl⟩
    · -- The first word would go on into the second one.
      rintro ⟨piece, more⟩ hnext - hsecond rfl
      obtain ⟨pieces, rfl⟩ := List.head?_eq_some_iff.1 hnext
      obtain ⟨-, hpiece, -, -⟩ := Pieces.spaced_cons.1 hspaced
      obtain ⟨d, ds, hchars, -, hd⟩ := hpiece.exists_cons
      have hstop := stops_dropWhile isWordChar cs d (by rw [hdrop, Pieces.text_cons, hchars]; rfl)
      simp [hd, hsecond] at hstop
    · rw [List.nil_append, Pieces.text_cons, Piece.chars, ← hdrop, List.cons_append,
        List.takeWhile_append_dropWhile]
  | case7 => simp at h

end Excerpt

namespace Pieces

/-- The first gap and the text of the pieces can be told apart. -/
theorem Spaced.lead_unique {lead lead' : List Char} {pieces pieces' : Pieces}
    (h : Spaced lead pieces) (h' : Spaced lead' pieces')
    (htext : lead ++ pieces.text = lead' ++ pieces'.text) :
    lead = lead' ∧ pieces.text = pieces'.text := by
  have htake := congrArg (List.takeWhile isGap) htext
  rw [h.stops_isGap.takeWhile_run h.lead, h'.stops_isGap.takeWhile_run h'.lead] at htake
  exact ⟨htake, List.append_cancel_left (htake ▸ htext)⟩

theorem Spaced.head_unique {lead lead' gap gap' : List Char} {piece piece' : Piece}
    {pieces pieces' : Pieces} (h : Spaced lead ((piece, gap) :: pieces))
    (h' : Spaced lead' ((piece', gap') :: pieces'))
    (htext : piece.chars ++ (gap ++ pieces.text) = piece'.chars ++ (gap' ++ pieces'.text)) :
    piece = piece' := by
  obtain ⟨-, hproper, -, -⟩ := spaced_cons.1 h
  obtain ⟨-, hproper', -, -⟩ := spaced_cons.1 h'
  obtain ⟨c, cs, hchars, -, hword⟩ := hproper.exists_cons
  obtain ⟨c', cs', hchars', -, hword'⟩ := hproper'.exists_cons
  -- the first character tells words from groups
  have hkind : piece.isWord = piece'.isWord := by
    have hhead := htext
    rw [hchars, hchars'] at hhead
    rw [← hword, ← hword', (List.cons.inj hhead).1]
  cases piece <;> cases piece' <;> simp only [Piece.isWord, reduceCtorEq] at hkind
  · have htake := congrArg (List.takeWhile isWordChar) htext
    simp only [Piece.chars, h.stops_isWordChar.takeWhile_run hproper.2,
      h'.stops_isWordChar.takeWhile_run hproper'.2] at htake
    rw [htake]
  · have hclose := closeGroup_of_isGroup hproper (gap ++ pieces.text)
    have hclose' := closeGroup_of_isGroup hproper' (gap' ++ pieces'.text)
    simp only [Piece.chars] at htext
    rw [htext, hclose', Option.some.injEq, Prod.mk.injEq] at hclose
    rw [hclose.1]

theorem Spaced.eq_nil {lead : List Char} {pieces : Pieces} (h : Spaced lead pieces)
    (htext : pieces.text = []) : pieces = [] := by
  cases pieces with
  | nil => rfl
  | cons p pieces =>
    obtain ⟨-, hproper, -, -⟩ := spaced_cons.1 h
    obtain ⟨c, cs, hchars, -⟩ := hproper.exists_cons
    rw [text_cons, hchars] at htext
    simp at htext

theorem Spaced.pieces_unique {lead lead' : List Char} {pieces pieces' : Pieces}
    (h : Spaced lead pieces) (h' : Spaced lead' pieces') (htext : pieces.text = pieces'.text) :
    pieces = pieces' := by
  induction pieces generalizing lead lead' pieces' with
  | nil => exact (h'.eq_nil htext.symm).symm
  | cons p pieces ih =>
    cases pieces' with
    | nil => exact h.eq_nil htext
    | cons p' pieces' =>
      obtain ⟨piece, gap⟩ := p
      obtain ⟨piece', gap'⟩ := p'
      obtain ⟨-, -, -, hrest⟩ := spaced_cons.1 h
      obtain ⟨-, -, -, hrest'⟩ := spaced_cons.1 h'
      rw [text_cons, text_cons] at htext
      obtain rfl := h.head_unique h' htext
      obtain ⟨rfl, hmore⟩ := hrest.lead_unique hrest' (List.append_cancel_left htext)
      rw [ih hrest hrest' hmore]

end Pieces

/-- There is one way at most to take a text apart. -/
instance (cs : List Char) : Subsingleton (Listing cs) where
  allEq l l' := by
    have hspelled := l.spelled.symm.trans l'.spelled
    have htext := List.append_cancel_right (List.cons.inj hspelled).2
    obtain ⟨hlead, hpieces⟩ := l.spaced.lead_unique l'.spaced htext
    exact Listing.ext hlead (l.spaced.pieces_unique l'.spaced hpieces)

theorem Position.skip_append (p : Position) (xs ys : List Char) :
    p.skip (xs ++ ys) = (p.skip xs).skip ys := List.foldl_append

theorem Position.offset_skip (p : Position) (cs : List Char) :
    (p.skip cs).offset = p.offset + String.utf8Len cs := by
  induction cs generalizing p with
  | nil => rfl
  | cons c cs ih =>
    have hnext : (p.next c).offset = p.offset + c.utf8Size := by
      unfold Position.next
      split <;> rfl
    rw [Position.skip_cons, ih, hnext, String.utf8Len_cons]
    omega

namespace Excerpt

/-- A place between the characters of a text: its bytes can be cut there. -/
structure HasPlace (e : Excerpt) (p : Position) : Prop where
  between : ∃ before after, e.chars = before ++ after ∧ p = e.start.skip before
  isValid : String.Pos.Raw.IsValid e.text ⟨p.offset - e.start.offset⟩

theorem hasPlace_skip {e : Excerpt} {before after : List Char} (h : e.chars = before ++ after) :
    e.HasPlace (e.start.skip before) where
  between := ⟨before, after, h, rfl⟩
  isValid := by
    rw [Position.offset_skip, Nat.add_sub_cancel_left, String.Pos.Raw.isValid_iff_exists_append]
    exact ⟨String.ofList before, String.ofList after, by rw [text, h, String.ofList_append],
      by rw [String.rawEndPos_ofList]⟩

/-- Whether `e` is a part of `text` that begins where it says. -/
def Contains (text e : Excerpt) : Prop :=
  ∃ before after, text.chars = before ++ (e.chars ++ after) ∧ e.start = text.start.skip before

variable {text e : Excerpt} {p : Position}

theorem Contains.trans {inner : Excerpt} (h : text.Contains e) (hinner : e.Contains inner) :
    text.Contains inner := by
  obtain ⟨before, after, hchars, hstart⟩ := h
  obtain ⟨front, back, hinner, hplace⟩ := hinner
  refine ⟨before ++ front, back ++ after, ?_, ?_⟩
  · simp only [hchars, hinner, List.append_assoc]
  · rw [hplace, hstart, Position.skip_append]

theorem Contains.hasPlace (h : text.Contains e) (hp : e.HasPlace p) : text.HasPlace p := by
  obtain ⟨before, after, hchars, hstart⟩ := h
  obtain ⟨⟨front, back, hfront, rfl⟩, -⟩ := hp
  have hsplit : text.chars = (before ++ front) ++ (back ++ after) := by
    simp only [hchars, hfront, List.append_assoc]
  rw [hstart, ← Position.skip_append]
  exact hasPlace_skip hsplit

theorem Contains.hasPlace_start (h : text.Contains e) : text.HasPlace e.start :=
  h.hasPlace (hasPlace_skip (List.nil_append _).symm)

end Excerpt

namespace Pieces

theorem exists_append_of_mem_items {place : Position} {pieces : Pieces} {item : Item}
    (h : item ∈ pieces.items place) :
    ∃ before after, pieces.text = before ++ (item.excerpt.chars ++ after) ∧
      item.excerpt.start = place.skip before := by
  induction pieces generalizing place with
  | nil => simp [items] at h
  | cons p pieces ih =>
    obtain ⟨piece, gap⟩ := p
    rw [items, List.mem_cons] at h
    rw [text_cons]
    rcases h with rfl | h
    · exact ⟨[], gap ++ text pieces, by simp, by simp⟩
    · obtain ⟨before, after, htext, hstart⟩ := ih h
      refine ⟨piece.chars ++ (gap ++ before), after, by simp [htext], ?_⟩
      rw [hstart, Position.skip_append, Position.skip_append]

end Pieces

namespace Excerpt

theorem itemsFrom_eq_error {place : Position} {cs : List Char} {err : Error}
    (h : itemsFrom place cs = .error err) :
    ∃ before after fault, cs = before ++ after ∧ err = (place.skip before).fault fault := by
  fun_induction itemsFrom place cs with
  | case1 => simp at h
  | case2 place c cs hgap ih =>
    obtain ⟨before, after, fault, rfl, rfl⟩ := ih h
    exact ⟨c :: before, after, fault, rfl, rfl⟩
  | case3 place cs =>
    exact ⟨[], '(' :: cs, .unclosed, rfl, (Except.error.inj h).symm⟩
  | case4 place cs group rest hgap hclose hlt ih =>
    obtain ⟨before, after, fault, rfl, rfl⟩ := ih (bind_pure_eq_error.1 h)
    refine ⟨group ++ before, after, fault, ?_, by rw [Position.skip_append]⟩
    rw [List.append_assoc, (closeGroup_append hclose).1]
  | case5 place cs =>
    exact ⟨[], ')' :: cs, .unopened, rfl, (Except.error.inj h).symm⟩
  | case6 place c cs hgap hopen hclose hword hlen word =>
    rename_i ih
    obtain ⟨before, after, fault, hdrop, rfl⟩ := ih (bind_pure_eq_error.1 h)
    refine ⟨word ++ before, after, fault, ?_, by rw [Position.skip_append]⟩
    rw [List.append_assoc, ← hdrop, List.cons_append, List.takeWhile_append_dropWhile]
  | case7 place c cs =>
    exact ⟨[], c :: cs, _, rfl, (Except.error.inj h).symm⟩

variable {e : Excerpt} {items : List Item} {item : Item} {err : Error}

theorem items_eq_ok_iff_listing :
    e.items = .ok items ↔ ∃ l : Listing e.chars, items = l.items e.start := by
  rw [items_eq_ok]
  constructor
  · rintro ⟨inner, hchars, h⟩
    obtain ⟨lead, pieces, hspaced, rfl, rfl⟩ := exists_spaced h
    exact ⟨⟨lead, pieces, hspaced, hchars⟩, rfl⟩
  · rintro ⟨l, rfl⟩
    exact ⟨_, l.spelled, itemsFrom_of_spaced l.spaced _⟩

theorem contains_of_mem_items (h : e.items = .ok items) (hitem : item ∈ items) :
    e.Contains item.excerpt := by
  obtain ⟨l, rfl⟩ := items_eq_ok_iff_listing.1 h
  obtain ⟨before, after, htext, hstart⟩ := Pieces.exists_append_of_mem_items hitem
  refine ⟨'(' :: (l.lead ++ before), after ++ [')'], l.spelled.trans (by simp [htext]), ?_⟩
  rw [hstart, Position.skip_cons, Position.skip_append]

theorem hasPlace_of_mem_items (h : e.items = .ok items) (hitem : item ∈ items) :
    e.HasPlace item.excerpt.start ∧ e.HasPlace (item.excerpt.start.skip item.excerpt.chars) := by
  have hcontains := contains_of_mem_items h hitem
  exact ⟨hcontains.hasPlace_start, hcontains.hasPlace (hasPlace_skip (List.append_nil _).symm)⟩

theorem hasPlace_of_items_eq_error (h : e.items = .error err) :
    ∃ p fault, e.HasPlace p ∧ err = p.fault fault := by
  rcases items_cases e with ⟨inner, hchars⟩ | hrefused
  · obtain ⟨start, chars⟩ := e
    obtain rfl : chars = '(' :: (inner ++ [')']) := hchars
    rw [items_parenthesized] at h
    obtain ⟨before, after, fault, rfl, rfl⟩ := itemsFrom_eq_error h
    have hsplit : '(' :: (before ++ after ++ [')']) = ('(' :: before) ++ (after ++ [')']) := by simp
    exact ⟨start.skip ('(' :: before), fault, hasPlace_skip hsplit, rfl⟩
  · -- a text that is in no parentheses is refused at its beginning
    obtain rfl := Except.error.inj (hrefused.symm.trans h)
    exact ⟨e.start, _, hasPlace_skip (List.nil_append _).symm, rfl⟩

/-- Splitting a list is exact and loses nothing. A text has items if and only if it can be taken apart
into pieces and gaps in parentheses, these are its items, and there is no second way to take it apart.
All places that splitting names, in an answer or in an error, lie between characters, and a group is
shorter than the text it stands in, so a text can be split all the way down. -/
theorem items_exact (e : Excerpt) :
    (∀ items, e.items = .ok items ↔ ∃ l : Listing e.chars, items = l.items e.start) ∧
    Subsingleton (Listing e.chars) ∧
    (∀ items, e.items = .ok items →
      e.tree = .list e (items.map Item.tree) ∧ ∀ item ∈ items,
        e.HasPlace item.excerpt.start ∧
        e.HasPlace (item.excerpt.start.skip item.excerpt.chars) ∧
        ∀ g, item = .group g → g.chars.length < e.chars.length) ∧
    ∀ err, e.items = .error err → ∃ p fault, e.HasPlace p ∧ err = p.fault fault := by
  refine ⟨fun items => items_eq_ok_iff_listing, inferInstance, fun items h => ?_,
    fun err => hasPlace_of_items_eq_error⟩
  refine ⟨tree_of_ok h, fun item hitem => ?_⟩
  obtain ⟨hstart, hend⟩ := hasPlace_of_mem_items h hitem
  refine ⟨hstart, hend, ?_⟩
  rintro g rfl
  exact length_of_mem_items h hitem

def mixed : Excerpt := ofString "(λ(a b)  c)"

theorem items_exact_mixed : ∃ items, mixed.items = .ok items ∧ items.length = 3 ∧
    (∃ l : Listing mixed.chars, items = l.items mixed.start) ∧
    mixed.tree = .list mixed (items.map Item.tree) ∧
    ∀ item ∈ items, mixed.HasPlace item.excerpt.start := by
  have hitems : ∃ items, mixed.items = .ok items ∧ items.length = 3 := by decide +kernel
  obtain ⟨items, hitems, hlength⟩ := hitems
  obtain ⟨hlisting, -, hsplit, -⟩ := items_exact mixed
  obtain ⟨htree, hplaces⟩ := hsplit items hitems
  exact ⟨items, hitems, hlength, (hlisting items).1 hitems, htree,
    fun item hitem => (hplaces item hitem).1⟩

end Excerpt

end Pddl
