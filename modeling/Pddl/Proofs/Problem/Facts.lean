import Pddl.Problem.Reader
import Pddl.Proofs.Domain.Reader
import Pddl.Proofs.Number.ReadBack

namespace Pddl

open Text

/-- The facts that shapes state. -/
inductive Domain.States (d : Domain) (scope : Scope) : Shape → Fact → Prop where
  | atom {a : Application} (hhead : a.head ≠ "=") (haction : d.isActionPredicate a.head = false)
      (h : a.Checked d.predicates d.types scope) : States d scope a.shape (.atom a)
  | fluent {a : Application} {w : String} {v : Number} (haction : d.isActionPredicate a.head = false)
      (h : a.Checked d.functions d.types scope) (hv : Number.ofChars? w.toList = some v) :
      States d scope (.list [.word "=", a.shape, .word w]) (.fluent a v)

namespace Domain

variable {d : Domain} {scope : Scope} {f : Fact}

theorem headsAction_eq {a : Application} {e w : Excerpt} {args : List Tree}
    (h : (Tree.list e (.word w :: args)).shape = a.shape) :
    d.headsAction (.word w :: args) = d.isActionPredicate a.head := by
  simp only [Tree.shape_list, List.map_cons, Tree.shape_word, Application.shape, Shape.list.injEq,
    List.cons.injEq, Shape.word.injEq] at h
  rw [headsAction, h.1]

theorem readFluent_eq_some {entry : Tree} {args : List Tree} :
    d.readFluent scope entry args = .ok (some f) ↔
      ∃ a w v, args.map Tree.shape = [a.shape, .word w] ∧ f = .fluent a v ∧
        d.isActionPredicate a.head = false ∧ a.Checked d.functions d.types scope ∧
        Number.ofChars? w.toList = some v := by
  constructor
  · intro h
    unfold readFluent at h
    split at h
    · rename_i term value
      simp only [bind_eq_ok, Tree.expectItems_eq_ok] at h
      obtain ⟨inside, ⟨e, rfl⟩, h⟩ := h
      split at h
      · simp [pure_eq_ok] at h
      · rename_i haction
        simp only [bind_eq_ok, Symbols.readTerm_eq_ok, Tree.expectWord_eq_ok, readNumber_eq_ok,
          pure_eq_ok, Option.some.injEq] at h
        obtain ⟨a, ⟨hshape, ha⟩, w, rfl, v, hv, rfl⟩ := h
        obtain ⟨e', w', inner, heq, -⟩ := Tree.eq_headed_of_shape hshape
        obtain ⟨rfl, rfl⟩ := Tree.list.inj heq
        rw [headsAction_eq hshape, Bool.not_eq_true] at haction
        exact ⟨a, w.text, v, by simp [← hshape], rfl, haction, ha, hv⟩
    · simp at h
  · rintro ⟨a, w, v, hargs, rfl, haction, ha, hv⟩
    obtain ⟨term, value, rfl, hterm, hvalue⟩ := Tree.eq_pair_of_shapes hargs
    obtain ⟨e, head, inner, rfl, -⟩ := Tree.eq_headed_of_shape hterm
    obtain ⟨word, rfl, rfl⟩ := Tree.eq_word_of_shape hvalue
    simp only [readFluent, Tree.expectItems, ok_bind, headsAction_eq hterm, haction,
      Bool.false_eq_true, if_false, bind_eq_ok, Symbols.readTerm_eq_ok, Tree.expectWord_eq_ok,
      readNumber_eq_ok, pure_eq_ok]
    exact ⟨a, ⟨hterm, ha⟩, word, rfl, v, hv, rfl⟩

theorem readFact_eq_some {entry : Tree} :
    d.readFact scope entry = .ok (some f) ↔ d.States scope entry.shape f := by
  constructor
  · intro h
    simp only [readFact, bind_eq_ok, Tree.expectItems_eq_ok] at h
    obtain ⟨items, ⟨e, rfl⟩, h⟩ := h
    split at h
    · simp at h
    · rename_i head args
      simp only [bind_eq_ok, Tree.expectWord_eq_ok] at h
      obtain ⟨w, rfl, h⟩ := h
      split at h
      · rename_i hequal
        obtain ⟨a, number, v, hargs, rfl, haction, ha, hv⟩ := readFluent_eq_some.1 h
        have hshape : (Tree.list e (.word w :: args)).shape =
            .list [.word "=", a.shape, .word number] := by simp [hequal, hargs]
        exact hshape ▸ .fluent haction ha hv
      · rename_i hequal
        split at h
        · simp [pure_eq_ok] at h
        · rename_i haction
          simp only [bind_eq_ok, Symbols.readAtom_eq_ok, pure_eq_ok, Option.some.injEq] at h
          obtain ⟨a, ⟨hhead, hargs, ha⟩, rfl⟩ := h
          have hshape : (Tree.list e (.word w :: args)).shape = a.shape := by
            simp [Application.shape, hhead, hargs]
          rw [hhead] at hequal haction
          exact hshape ▸ .atom hequal (by simpa using haction) ha
  · intro h
    generalize hs : entry.shape = s at h
    cases h with
    | atom hhead haction ha =>
      obtain ⟨e, w, args, rfl, hw, hargs⟩ := Tree.eq_headed_of_shape hs
      simp only [readFact, Tree.expectItems, Tree.expectWord, ok_bind, hw, if_neg hhead, haction,
        Bool.false_eq_true, if_false, bind_eq_ok, Symbols.readAtom_eq_ok, pure_eq_ok]
      exact ⟨_, ⟨rfl, hargs, ha⟩, rfl⟩
    | fluent haction ha hv =>
      obtain ⟨e, w, args, rfl, hw, hargs⟩ := Tree.eq_headed_of_shape hs
      simp only [readFact, Tree.expectItems, Tree.expectWord, ok_bind, hw, if_true]
      exact readFluent_eq_some.2 ⟨_, _, _, hargs, rfl, haction, ha, hv⟩

/-- Every fact that is kept was stated. -/
theorem exists_of_mem_readFacts {ts : List Tree} {facts : List Fact}
    (h : d.readFacts scope ts = .ok facts) (hf : f ∈ facts) :
    ∃ t ∈ ts, d.States scope t.shape f := by
  induction ts generalizing facts with
  | nil =>
    obtain rfl : [] = facts := by simpa [readFacts] using h
    simp at hf
  | cons t ts ih =>
    simp only [readFacts, bind_eq_ok, pure_eq_ok] at h
    obtain ⟨fact, hfact, rest, hrest, rfl⟩ := h
    rcases List.mem_append.1 hf with hf | hf
    · obtain rfl := Option.mem_toList.1 hf
      exact ⟨t, List.mem_cons_self, readFact_eq_some.1 hfact⟩
    · obtain ⟨u, hu, hstates⟩ := ih hrest hf
      exact ⟨u, List.mem_cons_of_mem _ hu, hstates⟩

theorem readFacts_of_forall₂ {ts : List Tree} {facts : List Fact}
    (h : List.Forall₂ (fun t f => d.States scope t.shape f) ts facts) :
    d.readFacts scope ts = .ok facts := by
  induction h with
  | nil => rfl
  | cons ht _ ih =>
    simp only [readFacts, readFact_eq_some.2 ht, ok_bind, ih]
    rfl

end Domain

namespace Fact

def shape : Fact → Shape
  | .atom a => a.shape
  | .fluent a v => .list [.word "=", a.shape, .word v.word]

theorem writes_fluent {a : Application} (h : a.shape.Plain) (v : Number) :
    Writes (Fact.fluent a v).text [.word "=", a.shape, .word v.word] := by
  have hterm := Application.spells_text h
  have hequal : PlainWord "=" := by decide
  exact .of_keyword (by simp [text]) hequal (hterm.append_blank (Number.spells_toString v))

end Fact

namespace Domain.States

variable {d : Domain} {scope : Scope} {s : Shape} {f : Fact}

theorem shape (h : d.States scope s f) (hvalue : ∀ v ∈ f.value?, v.ReadsBack) :
    d.States scope f.shape f := by
  cases h with
  | atom hhead haction h => exact .atom hhead haction h
  | fluent haction h _ => exact .fluent haction h (hvalue _ rfl).ofChars?_word

theorem spells (h : d.States scope s f) (hplain : s.Plain) : Spells f.text.toList [f.shape] := by
  cases h with
  | atom _ _ _ => exact Application.spells_text hplain
  | @fluent a w v _ _ _ =>
    simp only [Shape.plain_list, List.forall_mem_cons] at hplain
    exact (Fact.writes_fluent hplain.2.1 v).spells

end Domain.States

namespace Number

/-- A number that was read is read again, and as itself, from what is written for it: from the text
of a number alone, and from that of a fact, where it is the last item. Negative infinity alone, which
is what a negative number out of range is read as, is refused. -/
theorem ofChars?_written {cs : List Char} {v : Number} (h : ofChars? cs = some v) :
    ofChars? (prepare (Numeric.number v).text).toList =
        (if v = .infinite true then none else some v) ∧
      ∀ t : Application, t.shape.Plain → ∃ w,
        (Excerpt.ofString (prepare (Fact.fluent t v).text)).tree.shape =
            .list [.word "=", t.shape, .word w] ∧
          ofChars? w.toList = if v = .infinite true then none else some v := by
  have hword := ofChars?_word_of_isValue (isValue_of_ofChars? h)
  refine ⟨?_, fun t ht => ⟨v.word, (Fact.writes_fluent ht v).shape_prepare, hword⟩⟩
  rw [Numeric.text, prepare_toString, hword]

theorem ofChars?_written_least :
    ofChars? "3e-324".toList = some (.finite false 1) ∧
      ofChars? (prepare (Numeric.number (.finite false 1)).text).toList = some (.finite false 1) := by
  have hread : ofChars? "3e-324".toList = some (.finite false 1) := by
    decide +kernel
  exact ⟨hread, (ofChars?_written hread).1⟩

theorem ofChars?_written_infinite :
    ofChars? "-1e999".toList = some (.infinite true) ∧
      ofChars? (prepare (Numeric.number (.infinite true)).text).toList = none := by
  decide +kernel

end Number

end Pddl
