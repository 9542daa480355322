import Pddl.Formula.Printer
import Pddl.Proofs.Formula.Grammar
import Pddl.Proofs.Number.Spelling

namespace Pddl

open Text

def Numeric.shape : Numeric → Shape
  | .number v => .word v.word
  | .function t => t.shape
  | .binary o l r => .list [.word o.text, l.shape, r.shape]

namespace Formula

mutual

/-- The words that a formula is written with, in prepared form. -/
def shape : Formula → Shape
  | .atom a => a.shape
  | .not body => .list [.word "not", body.shape]
  | .delete body => .list [.word "not", body.shape]
  | .and terms => .list (.word "and" :: shapes terms)
  | .or terms => .list (.word "or" :: shapes terms)
  | .imply l r => .list [.word "imply", l.shape, r.shape]
  | .forAll vs body => .list [.word "forall", .list (vs.flatMap Entity.shapes), body.shape]
  | .thereIs vs body => .list [.word "exists", .list (vs.flatMap Entity.shapes), body.shape]
  | .when c e => .list [.word "when", c.shape, e.shape]
  | .assign u t v => .list [.word u.text, t.shape, v.shape]
  | .probabilistic outcomes => .list (.word "probabilistic" :: outcomeShapes outcomes)
  | .comparison r t v => .list [.word r.text, t.shape, v.shape]
  | .equal a b => .list [.word "=", .word a.name, .word b.name]
  | .different a b => .list [.word "different", .word a.name, .word b.name]
  | .timed time body => .list [.word time.keyword.text, .word time.qualifier, body.shape]

def shapes : List Formula → List Shape
  | [] => []
  | f :: fs => f.shape :: shapes fs

def outcomeShapes : List (Number × Formula) → List Shape
  | [] => []
  | (p, f) :: rest => .word p.word :: f.shape :: outcomeShapes rest

end

theorem shapes_eq_map (fs : List Formula) : shapes fs = fs.map shape := by
  induction fs with
  | nil => simp [shapes]
  | cons f fs ih => simp [shapes, ih]

theorem outcomeShapes_eq_flatMap (outcomes : List (Number × Formula)) :
    outcomeShapes outcomes = outcomes.flatMap fun o => [.word o.1.word, o.2.shape] := by
  induction outcomes with
  | nil => simp [outcomeShapes]
  | cons o rest ih => obtain ⟨p, f⟩ := o; simp [outcomeShapes, ih]

theorem outcomeTexts_eq_map (outcomes : List (Number × Formula)) :
    outcomeTexts outcomes = outcomes.map fun o => o.1.toString ++ " " ++ o.2.text := by
  induction outcomes with
  | nil => simp [outcomeTexts]
  | cons o rest ih => obtain ⟨p, f⟩ := o; simp [outcomeTexts, ih]

end Formula

theorem Number.spells_toString (n : Number) : Spells n.toString.toList [.word n.word] := by
  rw [Number.toString, String.toList_ofList]
  exact .single_word n.rawWord_toChars

theorem Application.writes_text {a : Application} (h : a.shape.Plain) :
    Writes a.text (.word a.head :: a.arguments.map fun e => .word e.name) := by
  simp only [shape, Shape.plain_list, List.forall_mem_cons, Shape.plain_word] at h
  obtain ⟨hhead, hargs⟩ := h
  have hspells : List.Forall₂ (fun s ss => Spells s.toList ss) (a.arguments.map Entity.name)
      (a.arguments.map fun e => [.word e.name]) := by
    refine forall₂_map_map fun e he => .single_plain ?_
    exact (Shape.plain_word _).1 (hargs _ (List.mem_map_of_mem he))
  obtain ⟨htrailing, hbreak⟩ := Spells.trailing hspells
  have hflat : (a.arguments.map fun e => [Shape.word e.name]).flatten =
      a.arguments.map fun e => .word e.name := by
    rw [← List.flatMap_def, ← List.map_eq_flatMap]
  rw [hflat] at htrailing
  exact .of_head (by simp [text]) hhead hbreak htrailing

theorem Application.spells_text {a : Application} (h : a.shape.Plain) :
    Spells a.text.toList [a.shape] :=
  (writes_text h).spells

namespace Numeric

theorem spells_binary {op : Arithmetic} {l r : Numeric} (hl : Spells l.text.toList [l.shape])
    (hr : Spells r.text.toList [r.shape]) :
    Spells (Numeric.binary op l r).text.toList [(Numeric.binary op l r).shape] := by
  have hop : PlainWord op.text := by cases op <;> decide
  have hwrites : Writes (Numeric.binary op l r).text [.word op.text, l.shape, r.shape] :=
    .of_keyword (by simp [text]) hop (hl.append_blank hr)
  exact hwrites.spells

theorem spells_foldl {op : Arithmetic} {xs : List Numeric} {x : Numeric}
    (hx : Spells x.text.toList [x.shape]) (hxs : ∀ y ∈ xs, Spells y.text.toList [y.shape]) :
    Spells (xs.foldl (.binary op) x).text.toList [(xs.foldl (.binary op) x).shape] := by
  induction xs generalizing x with
  | nil => exact hx
  | cons y ys ih =>
    rw [List.forall_mem_cons] at hxs
    exact ih (spells_binary hx hxs.1) hxs.2

theorem spells_text {symbols : Symbols} {scope : Scope} {s : Shape} {x : Numeric}
    (h : symbols.Values scope s x) (hplain : s.Plain) : Spells x.text.toList [x.shape] := by
  induction h with
  | number => exact Number.spells_toString _
  | function => exact Application.spells_text hplain
  | negated _ ih =>
    simp only [Shape.plain_list, List.forall_mem_cons] at hplain
    exact spells_binary (Number.spells_toString _) (ih hplain.2.1)
  | @folded s x ss xs op _ hlen _ _ ihfirst ihrest =>
    simp only [Shape.plain_list, List.forall_mem_cons] at hplain
    have hrest : ∀ y ∈ xs, Spells y.text.toList [y.shape] := by
      intro y hy
      obtain ⟨u, hu⟩ := exists_zip_of_mem hlen hy
      exact ihrest u y hu (hplain.2.2 u (List.of_mem_zip hu).1)
    exact spells_foldl (ihfirst hplain.2.1) hrest

end Numeric

namespace Formula

def IsWritten (f : Formula) : Prop := ∃ ss, f.shape = .list ss ∧ Writes f.text ss

theorem IsWritten.spells {f : Formula} (h : f.IsWritten) : Spells f.text.toList [f.shape] := by
  obtain ⟨ss, hshape, hwrites⟩ := h
  rw [hshape]
  exact hwrites.spells

theorem spells_texts {fs : List Formula} (h : ∀ f ∈ fs, f.IsWritten) :
    Spells (words (texts fs)).toList (shapes fs) := by
  have hspells : List.Forall₂ (fun s ss => Spells s.toList ss) (fs.map text)
      (fs.map fun f => [f.shape]) :=
    forall₂_map_map fun f hf => (h f hf).spells
  rw [texts_eq_map, shapes_eq_map, List.map_eq_flatMap (f := shape), List.flatMap_def]
  exact Spells.words hspells

theorem spells_outcomeTexts {os : List (Number × Formula)} (h : ∀ o ∈ os, o.2.IsWritten) :
    Spells (words (outcomeTexts os)).toList (outcomeShapes os) := by
  have hspells : List.Forall₂ (fun s ss => Spells s.toList ss)
      (os.map fun o => o.1.toString ++ " " ++ o.2.text)
      (os.map fun o => [.word o.1.word, o.2.shape]) := by
    refine forall₂_map_map fun o ho => ?_
    have hpair := (Number.spells_toString o.1).append_blank (h o ho).spells
    simpa using hpair
  rw [outcomeTexts_eq_map, outcomeShapes_eq_flatMap, List.flatMap_def]
  exact Spells.words hspells

theorem isWritten_pair {f l r : Formula} {head : String} (hhead : PlainWord head)
    (htext : f.text.toList = '(' :: (head.toList ++ ' ' :: (l.text.toList ++ ' ' :: r.text.toList) ++ [')']))
    (hshape : f.shape = .list [.word head, l.shape, r.shape]) (hl : l.IsWritten)
    (hr : r.IsWritten) : f.IsWritten :=
  ⟨_, hshape, .of_keyword htext hhead (hl.spells.append_blank hr.spells)⟩

end Formula

/-- What is read from a prepared text is written in the same words. -/
theorem Symbols.Denotes.isWritten {symbols : Symbols} {scope : Scope} {mode : Mode} {s : Shape}
    {f : Formula} (h : symbols.Denotes scope mode s f) (hplain : s.Plain) : f.IsWritten := by
  induction h with
  | trivial =>
    have hand : PlainWord "and" := by decide
    have htext : Formula.trivial.text.toList = '(' :: ("and".toList ++ ' ' :: [] ++ [')']) := by
      simp [Formula.trivial, Formula.text, Formula.texts, words, joinWith]
    exact ⟨_, rfl, .of_keyword htext hand .nil⟩
  | atom => exact ⟨_, rfl, Application.writes_text hplain⟩
  | @not _ _ f _ ih | @delete _ _ f _ ih =>
    simp only [Shape.plain_list, List.forall_mem_cons, Shape.plain_word] at hplain
    have hwrites := (ih hplain.2.1).spells
    exact ⟨_, rfl, .of_keyword (by simp [Formula.text]) hplain.1 hwrites⟩
  | and hlen _ ih | or hlen _ ih =>
    simp only [Shape.plain_list, List.forall_mem_cons, Shape.plain_word] at hplain
    obtain ⟨hhead, hss⟩ := hplain
    refine ⟨_, rfl, .of_keyword (by simp [Formula.text]) hhead (Formula.spells_texts ?_)⟩
    intro f hf
    obtain ⟨u, hu⟩ := exists_zip_of_mem hlen hf
    exact ih u f hu (hss u (List.of_mem_zip hu).1)
  | imply _ _ ihleft ihright | when _ _ ihleft ihright =>
    simp only [Shape.plain_list, List.forall_mem_cons, Shape.plain_word] at hplain
    obtain ⟨hhead, hleft, hright, -⟩ := hplain
    exact Formula.isWritten_pair hhead (by simp [Formula.text]) rfl (ihleft hleft) (ihright hright)
  | forAll hbinders _ _ _ ih | thereIs hbinders _ _ _ ih =>
    simp only [Shape.plain_list, List.forall_mem_cons, Shape.plain_word] at hplain
    obtain ⟨hhead, hss, hbody, -⟩ := hplain
    have hlist := (Entity.spells_texts (hbinders.plain hss)).single_list
    refine ⟨_, rfl, .of_keyword ?_ hhead (hlist.append_blank (ih hbody).spells)⟩
    simp [Formula.text]
  | unbound _ _ _ ih =>
    simp only [Shape.plain_list, List.forall_mem_cons, Shape.plain_word] at hplain
    exact ih hplain.2.2.1
  | assign _ hx | comparison _ hx =>
    simp only [Shape.plain_list, List.forall_mem_cons, Shape.plain_word] at hplain
    obtain ⟨hhead, hterm, hvalue, -⟩ := hplain
    have hpair := (Application.spells_text hterm).append_blank
      (Numeric.spells_text hx hvalue)
    exact ⟨_, rfl, .of_keyword (by simp [Formula.text]) hhead hpair⟩
  | probabilistic hlen _ _ _ ih =>
    simp only [Shape.plain_list, List.forall_mem_cons, Shape.plain_word] at hplain
    obtain ⟨hhead, hargs⟩ := hplain
    refine ⟨_, rfl, .of_keyword (by simp [Formula.text]) hhead (Formula.spells_outcomeTexts ?_)⟩
    intro o ho
    obtain ⟨a, hao⟩ := exists_zip_of_mem hlen ho
    exact ih a o hao (hargs a.2 (List.mem_flatMap.2 ⟨a, (List.of_mem_zip hao).1, by simp⟩))
  | equal =>
    simp only [Shape.plain_list, List.forall_mem_cons, Shape.plain_word] at hplain
    obtain ⟨hhead, ha, hb, -⟩ := hplain
    have hpair := (Spells.single_plain ha).append_blank (.single_plain hb)
    exact ⟨_, rfl, .of_keyword (by simp [Formula.text]) hhead hpair⟩
  | @different _ _ a b =>
    simp only [Shape.plain_list, List.forall_mem_cons, Shape.plain_word] at hplain
    obtain ⟨-, ha, hb, -⟩ := hplain
    have hpair := (Spells.single_plain ha).append_blank (.single_plain hb)
    have hraw : RawWord "Different".toList := by decide
    have htext : (Formula.different a b).text.toList =
        '(' :: ("Different".toList ++ (' ' :: (a.name.toList ++ ' ' :: b.name.toList)) ++ [')']) := by
      simp [Formula.text]
    exact ⟨_, rfl, .headed htext hraw (breaks_cons _ (Or.inl rfl)) (.gap (Or.inl rfl) hpair)⟩
  | timed time _ ih =>
    simp only [Shape.plain_list, List.forall_mem_cons, Shape.plain_word] at hplain
    obtain ⟨hhead, hqualifier, hbody, -⟩ := hplain
    have hpair := (Spells.single_plain hqualifier).append_blank (ih hbody).spells
    refine ⟨_, rfl, .of_keyword ?_ hhead hpair⟩
    cases time <;> simp [Formula.text, Time.text, Time.keyword, Keyword.text, Time.qualifier]

end Pddl
