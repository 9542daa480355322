import Mathlib.Data.List.Forall2
import Pddl.Formula.Reader
import Pddl.Proofs.Tree.Shape

namespace Pddl

open Text

/-- Whether the name of the entity stands for it. -/
def Scope.Sees (scope : Scope) (e : Entity) : Prop := scope.find? e.name = some e

namespace Application

def shape (a : Application) : Shape :=
  .list (.word a.head :: a.arguments.map fun e => .word e.name)

/-- Whether the head is declared, with as many parameters as there are arguments and with types that
the types of the arguments are consistent with. -/
def Fits (a : Application) (signatures : List Signature) (types : Types) : Prop :=
  ∃ s, Signature.find? a.head signatures = some s ∧ s.arity = a.arguments.length ∧
    ∀ p ∈ s.parameters.zip a.arguments, types.isConsistent p.2.type p.1 = true

/-- An application that fits and whose arguments are visible. -/
structure Checked (a : Application) (signatures : List Signature) (types : Types) (scope : Scope) :
    Prop where
  fits : a.Fits signatures types
  sees : ∀ e ∈ a.arguments, scope.Sees e

end Application

theorem Scope.Sees.mem {scope : Scope} {e : Entity} (h : scope.Sees e) : e ∈ scope :=
  List.mem_of_find?_eq_some h

theorem Scope.name_of_find? {scope : Scope} {name : String} {e : Entity}
    (h : scope.find? name = some e) : e.name = name := by
  simpa using List.find?_some h

theorem Scope.resolve_eq_ok {scope : Scope} {t : Tree} {e : Entity} :
    scope.resolve t = .ok e ↔ t.shape = .word e.name ∧ scope.Sees e := by
  simp only [resolve, bind_eq_ok, Tree.expectWord_eq_ok]
  constructor
  · rintro ⟨w, rfl, h⟩
    split at h
    · rename_i d hd
      obtain rfl : d = e := by simpa using h
      have hname := name_of_find? hd
      exact ⟨by simp [hname], by rwa [Sees, hname]⟩
    · simp at h
  · rintro ⟨hname, hsees⟩
    obtain ⟨w, rfl, hw⟩ := Tree.eq_word_of_shape hname
    rw [Sees, ← hw] at hsees
    exact ⟨w, rfl, by rw [hsees]⟩

theorem Scope.resolveAll_eq_ok {scope : Scope} {ts : List Tree} {es : List Entity} :
    scope.resolveAll ts = .ok es ↔
      ts.map Tree.shape = es.map (fun e => .word e.name) ∧ ∀ e ∈ es, scope.Sees e := by
  induction ts generalizing es with
  | nil =>
    cases es <;> simp [resolveAll]
  | cons t ts ih =>
    simp only [resolveAll, bind_eq_ok, resolve_eq_ok, ih, pure_eq_ok]
    constructor
    · rintro ⟨e, ⟨ht, he⟩, es, ⟨hts, hes⟩, rfl⟩
      exact ⟨by simp [ht, hts], by simpa using ⟨he, hes⟩⟩
    · rintro ⟨hshapes, hsees⟩
      obtain ⟨e, es, rfl, ht, hts⟩ := List.map_eq_cons_iff.1 hshapes.symm
      rw [List.forall_mem_cons] at hsees
      exact ⟨e, ⟨ht.symm, hsees.1⟩, es, ⟨hts.symm, hsees.2⟩, rfl⟩

theorem Signature.apply_eq_ok {s : Signature} {types : Types} {es : List Entity}
    {a : Application} :
    s.apply types es = .ok a ↔ s.arity = es.length ∧
      (∀ p ∈ s.parameters.zip es, types.isConsistent p.2.type p.1 = true) ∧ ⟨s.name, es⟩ = a := by
  simp only [apply, ne_eq, ite_error_eq_ok, not_not]
  refine and_congr_right fun _ => ?_
  cases hmis : s.firstMismatch types es with
  | none =>
    simp only [firstMismatch, List.find?_eq_none, Bool.not_eq_true', Bool.not_eq_false] at hmis
    simp only [Except.ok.injEq]
    exact ⟨fun h => ⟨hmis, h⟩, fun h => h.2⟩
  | some p =>
    have hp := List.find?_some hmis
    have hmem := List.mem_of_find?_eq_some hmis
    simp only [reduceCtorEq, false_iff, not_and]
    intro hall
    simp [hall p hmem] at hp

theorem Signature.name_of_find? {name : String} {signatures : List Signature} {s : Signature}
    (h : Signature.find? name signatures = some s) : s.name = name := by
  simpa using List.find?_some h

theorem Signature.read_eq_ok {signatures : List Signature} {s : Signature} {types : Types}
    {scope : Scope} {head : String} {args : List Tree} {a : Application}
    (hs : Signature.find? head signatures = some s) :
    s.read types scope args = .ok a ↔ head = a.head ∧
      args.map Tree.shape = a.arguments.map (fun e => .word e.name) ∧
        a.Checked signatures types scope := by
  have hname := name_of_find? hs
  simp only [read, ne_eq, ite_error_eq_ok, not_not, bind_eq_ok, Scope.resolveAll_eq_ok, apply_eq_ok]
  constructor
  · rintro ⟨-, es, ⟨hshapes, hsees⟩, harity, htypes, rfl⟩
    exact ⟨hname.symm, hshapes, ⟨s, hname.symm ▸ hs, harity, htypes⟩, hsees⟩
  · rintro ⟨rfl, hshapes, ⟨s', hs', harity, htypes⟩, hsees⟩
    obtain rfl : s = s' := by simpa [hs] using hs'
    refine ⟨?_, a.arguments, ⟨hshapes, hsees⟩, harity, htypes, by rw [hname]⟩
    simpa [harity] using (congrArg List.length hshapes).symm

namespace Symbols

variable {symbols : Symbols} {scope : Scope}

theorem readAtom_eq_ok {head : Excerpt} {args : List Tree} {a : Application} :
    symbols.readAtom scope head args = .ok a ↔ head.text = a.head ∧
      args.map Tree.shape = a.arguments.map (fun e => .word e.name) ∧
        a.Checked symbols.predicates symbols.types scope := by
  unfold readAtom
  cases hs : symbols.predicate? head.text with
  | some s => exact Signature.read_eq_ok hs
  | none =>
    simp only [reduceCtorEq, false_iff, not_and]
    rintro hhead - ⟨⟨s, hs', -⟩, -⟩
    simp [predicate?, hhead, hs'] at hs

theorem readFunction_eq_ok {head : Excerpt} {args : List Tree} {a : Application} :
    symbols.readFunction scope head args = .ok a ↔ head.text = a.head ∧
      args.map Tree.shape = a.arguments.map (fun e => .word e.name) ∧
        a.Checked symbols.functions symbols.types scope := by
  unfold readFunction
  cases hs : symbols.function? head.text with
  | some s => exact Signature.read_eq_ok hs
  | none =>
    simp only [reduceCtorEq, false_iff, not_and]
    rintro hhead - ⟨⟨s, hs', -⟩, -⟩
    simp [function?, hhead, hs'] at hs

theorem readTerm_eq_ok {t : Tree} {a : Application} :
    symbols.readTerm scope t = .ok a ↔
      t.shape = a.shape ∧ a.Checked symbols.functions symbols.types scope := by
  rcases t with e | ⟨e, _ | ⟨head, args⟩⟩ | ⟨e, err⟩
  · simp [readTerm, Application.shape]
  · simp [readTerm, Application.shape]
  · simp only [readTerm, bind_eq_ok, Tree.expectWord_eq_ok, readFunction_eq_ok, Application.shape,
      Tree.shape_list, List.map_cons, Shape.list.injEq, List.cons.injEq]
    constructor
    · rintro ⟨w, rfl, hhead, hargs, hchecked⟩
      exact ⟨⟨by simp [hhead], hargs⟩, hchecked⟩
    · rintro ⟨⟨hhead, hargs⟩, hchecked⟩
      obtain ⟨w, rfl, hw⟩ := Tree.eq_word_of_shape hhead
      exact ⟨w, rfl, hw, hargs, hchecked⟩
  · simp [readTerm, Application.shape]

end Symbols

/-- The numeric values that shapes stand for. -/
inductive Symbols.Values (symbols : Symbols) (scope : Scope) : Shape → Numeric → Prop where
  | number {w : String} {n : Number} (h : Number.ofChars? w.toList = some n) :
      Values symbols scope (.word w) (.number n)
  | function {a : Application} (hhead : Arithmetic.ofText? a.head = none)
      (h : a.Checked symbols.functions symbols.types scope) :
      Values symbols scope a.shape (.function a)
  | negated {s : Shape} {x : Numeric} (h : Values symbols scope s x) :
      Values symbols scope (.list [.word "-", s]) (.binary .minus (.number .zero) x)
  | folded {s : Shape} {x : Numeric} {ss : List Shape} {xs : List Numeric} (op : Arithmetic)
      (hne : xs ≠ []) (hlen : ss.length = xs.length) (hfirst : Values symbols scope s x)
      (hrest : ∀ s x, (s, x) ∈ ss.zip xs → Values symbols scope s x) :
      Values symbols scope (.list (.word op.text :: s :: ss)) (xs.foldl (.binary op) x)

theorem Arithmetic.ofText?_text (op : Arithmetic) : ofText? op.text = some op := by
  cases op <;> rfl

theorem Arithmetic.text_of_ofText? {s : String} {op : Arithmetic} (h : ofText? s = some op) :
    op.text = s := by
  simpa using List.find?_some h

theorem readNumber_eq_ok {e : Excerpt} {n : Number} :
    readNumber e = .ok n ↔ Number.ofChars? e.text.toList = some n := by
  rw [readNumber, Excerpt.text, String.toList_ofList]
  cases Number.ofChars? e.chars <;> simp

namespace Symbols

variable {symbols : Symbols} {scope : Scope}

theorem combine_eq_ok {head : Excerpt} {op : Arithmetic} {xs : List Numeric} {v : Numeric} :
    combine head op xs = .ok v ↔
      (op = .minus ∧ ∃ x, xs = [x] ∧ .binary .minus (.number .zero) x = v) ∨
        ∃ x y rest, xs = x :: y :: rest ∧ (y :: rest).foldl (.binary op) x = v := by
  rcases xs with _ | ⟨x, _ | ⟨y, rest⟩⟩
  · simp [combine]
  · by_cases hop : op = .minus <;> simp [combine, hop]
  · simp [combine]

theorem readNumerics_eq_ok {ts : List Tree} {xs : List Numeric} :
    symbols.readNumerics scope ts = .ok xs ↔
      List.Forall₂ (fun t x => symbols.readNumeric scope t = .ok x) ts xs := by
  induction ts generalizing xs with
  | nil => cases xs <;> simp [readNumerics]
  | cons t ts ih =>
    simp only [readNumerics, bind_eq_ok, ih, pure_eq_ok, List.forall₂_cons_left_iff]
    constructor
    · rintro ⟨x, hx, xs, hxs, rfl⟩
      exact ⟨x, xs, hx, hxs, rfl⟩
    · rintro ⟨x, xs, hx, hxs, rfl⟩
      exact ⟨x, hx, xs, hxs, rfl⟩

theorem readNumeric_list (e w : Excerpt) (args : List Tree) :
    symbols.readNumeric scope (.list e (.word w :: args)) =
      match Arithmetic.ofText? w.text with
      | none => symbols.readFunction scope w args >>= fun a => pure (.function a)
      | some op => symbols.readNumerics scope args >>= combine w op := by
  rw [readNumeric]
  rfl

theorem values_of_readNumeric {t : Tree} {v : Numeric} (h : symbols.readNumeric scope t = .ok v) :
    symbols.Values scope t.shape v := by
  induction t using Tree.induct generalizing v with
  | word e =>
    simp only [readNumeric, bind_eq_ok, pure_eq_ok, readNumber_eq_ok] at h
    obtain ⟨n, hn, rfl⟩ := h
    simpa using Values.number hn
  | broken e err => simp [readNumeric] at h
  | list e items ih =>
    rcases items with _ | ⟨head, args⟩
    · simp [readNumeric] at h
    · simp only [readNumeric, bind_eq_ok, Tree.expectWord_eq_ok] at h
      obtain ⟨w, rfl, h⟩ := h
      split at h
      · rename_i hop
        simp only [bind_eq_ok, pure_eq_ok, readFunction_eq_ok] at h
        obtain ⟨a, ⟨hhead, hargs, hchecked⟩, rfl⟩ := h
        have hshape : (Tree.list e (.word w :: args)).shape = a.shape := by
          simp [Application.shape, hhead, hargs]
        rw [hshape]
        exact .function (hhead ▸ hop) hchecked
      · rename_i op hop
        simp only [bind_eq_ok, readNumerics_eq_ok, combine_eq_ok] at h
        obtain ⟨xs, hxs, hv⟩ := h
        have hvalues := forall₂_imp_of_mem hxs fun t ht x => ih t (List.mem_cons_of_mem _ ht)
        rw [Tree.shape_list, List.map_cons, Tree.shape_word, ← Arithmetic.text_of_ofText? hop]
        rcases hv with ⟨rfl, x, rfl, rfl⟩ | ⟨x, y, rest, rfl, rfl⟩
        · obtain ⟨t, ts, ht, hts, rfl⟩ := List.forall₂_cons_right_iff.1 hvalues
          obtain rfl := List.forall₂_nil_right_iff.1 hts
          exact .negated ht
        · obtain ⟨t, ts, ht, hts, rfl⟩ := List.forall₂_cons_right_iff.1 hvalues
          obtain ⟨hlen, hrest⟩ := Tree.forall₂_shapes.1 hts
          exact .folded op (by simp) hlen ht hrest

theorem readNumeric_of_values {s : Shape} {v : Numeric} (h : symbols.Values scope s v) :
    ∀ t : Tree, t.shape = s → symbols.readNumeric scope t = .ok v := by
  induction h with
  | number hn =>
    intro t ht
    obtain ⟨e, rfl, rfl⟩ := Tree.eq_word_of_shape ht
    simp only [readNumeric, bind_eq_ok, pure_eq_ok, readNumber_eq_ok]
    exact ⟨_, hn, rfl⟩
  | @function a hhead hchecked =>
    intro t ht
    obtain ⟨e, w, args, rfl, hw, hargs⟩ := Tree.eq_headed_of_shape ht
    simp only [readNumeric_list, hw, hhead, bind_eq_ok, pure_eq_ok, readFunction_eq_ok]
    exact ⟨a, ⟨rfl, hargs, hchecked⟩, rfl⟩
  | @negated s x _ ih =>
    intro t ht
    obtain ⟨e, w, args, rfl, hw, hargs⟩ := Tree.eq_headed_of_shape ht
    obtain ⟨u, rfl, hu⟩ := Tree.eq_singleton_of_shapes hargs
    have hminus : Arithmetic.ofText? "-" = some .minus := rfl
    simp only [readNumeric_list, hw, hminus, bind_eq_ok, readNumerics_eq_ok, combine_eq_ok]
    exact ⟨[x], .cons (ih u hu) .nil, Or.inl ⟨trivial, x, rfl, rfl⟩⟩
  | @folded s x ss xs op hne hlen _ _ ihfirst ihrest =>
    intro t ht
    obtain ⟨e, w, args, rfl, hw, hargs⟩ := Tree.eq_headed_of_shape ht
    obtain ⟨u, us, rfl, hu, rfl⟩ := List.map_eq_cons_iff.1 hargs
    obtain ⟨y, rest, rfl⟩ := List.exists_cons_of_ne_nil hne
    have hrest : List.Forall₂ (fun t x => ∀ u : Tree, u.shape = t.shape →
        symbols.readNumeric scope u = .ok x) us (y :: rest) :=
      Tree.forall₂_shapes.2 ⟨hlen, ihrest⟩
    simp only [readNumeric_list, hw, Arithmetic.ofText?_text, bind_eq_ok, readNumerics_eq_ok,
      combine_eq_ok]
    exact ⟨x :: y :: rest, .cons (ihfirst u hu) (hrest.imp fun t x h => h t rfl),
      Or.inr ⟨x, y, rest, rfl, rfl⟩⟩

theorem readNumeric_eq_ok {t : Tree} {v : Numeric} :
    symbols.readNumeric scope t = .ok v ↔ symbols.Values scope t.shape v :=
  ⟨values_of_readNumeric, fun h => readNumeric_of_values h t rfl⟩

end Symbols

end Pddl
