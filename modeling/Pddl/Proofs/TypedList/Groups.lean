import Pddl.Proofs.Tree.Shape
import Pddl.TypedList

namespace Pddl

/-- Names with a dash and their type behind them. -/
@[ext] structure TypedGroup where
  names : List Excerpt
  dash : Excerpt
  type : Excerpt
  names_ne_nil : names ≠ []
  names_ne_dash : ∀ name ∈ names, name.text ≠ "-"
  dash_text : dash.text = "-"
  type_ne_dash : type.text ≠ "-"

namespace TypedGroup

def words (g : TypedGroup) : List Excerpt := g.names ++ [g.dash, g.type]

def typed (g : TypedGroup) : List TypedName := g.names.map (⟨·, some g.type⟩)

end TypedGroup

/-- A typed list, taken apart. -/
@[ext] structure TypedListing where
  groups : List TypedGroup
  untyped : List Excerpt
  untyped_ne_dash : ∀ name ∈ untyped, name.text ≠ "-"

namespace TypedListing

def words (l : TypedListing) : List Excerpt := l.groups.flatMap TypedGroup.words ++ l.untyped

def names (l : TypedListing) : List TypedName :=
  l.groups.flatMap TypedGroup.typed ++ l.untyped.map (⟨·, none⟩)

def cons (g : TypedGroup) (l : TypedListing) : TypedListing := { l with groups := g :: l.groups }

@[simp] theorem words_cons (g : TypedGroup) (l : TypedListing) :
    (cons g l).words = g.words ++ l.words := by
  simp [words, cons]

@[simp] theorem names_cons (g : TypedGroup) (l : TypedListing) :
    (cons g l).names = g.typed ++ l.names := by
  simp [names, cons]

/-- Typed lists are built from names without a type by putting groups in front. -/
theorem induct {P : TypedListing → Prop} (untyped : ∀ names h, P ⟨[], names, h⟩)
    (cons : ∀ g l, P l → P (cons g l)) (l : TypedListing) : P l := by
  obtain ⟨groups, names, h⟩ := l
  induction groups with
  | nil => exact untyped names h
  | cons g groups ih => exact cons g _ ih

theorem takeWhile_words (g : TypedGroup) (l : TypedListing) :
    (cons g l).words.takeWhile (fun e => e.text ≠ "-") = g.names := by
  rw [words_cons, TypedGroup.words, List.append_assoc,
    List.takeWhile_append_of_pos (by simpa using g.names_ne_dash)]
  simp [g.dash_text]

/-- The words say which group is in front: its names are those before the first dash. -/
theorem cons_unique {g h : TypedGroup} {l m : TypedListing}
    (heq : (cons g l).words = (cons h m).words) : g = h ∧ l.words = m.words := by
  have hnames : g.names = h.names := by rw [← takeWhile_words g l, heq, takeWhile_words]
  rw [words_cons, words_cons, TypedGroup.words, TypedGroup.words, hnames, List.append_assoc,
    List.append_assoc, List.append_cancel_left_eq] at heq
  simp only [List.cons_append, List.nil_append, List.cons.injEq] at heq
  exact ⟨TypedGroup.ext hnames heq.1 heq.2.1, heq.2.2⟩

theorem words_cons_ne {g : TypedGroup} {l : TypedListing} {names : List Excerpt}
    (hnames : ∀ name ∈ names, name.text ≠ "-") : (cons g l).words ≠ names := by
  rintro rfl
  exact hnames g.dash (by simp [TypedGroup.words]) g.dash_text

theorem words_injective : Function.Injective words := by
  intro l m heq
  induction l using induct generalizing m with
  | untyped names hnames =>
    induction m using induct with
    | untyped others _ =>
      obtain rfl : names = others := by simpa [words] using heq
      rfl
    | cons g m _ => exact absurd heq.symm (words_cons_ne (by simpa [words] using hnames))
  | cons g l ih =>
    induction m using induct with
    | untyped names hnames => exact absurd heq (words_cons_ne (by simpa [words] using hnames))
    | cons h m _ =>
      obtain ⟨rfl, hrest⟩ := cons_unique heq
      rw [ih hrest]

end TypedListing

variable {pending es : List Excerpt} {ts : List Tree} {ns : List TypedName}

/-- One step: a name waits for its type, or a dash with a type behind it ends the group. -/
theorem typedNamesAfter_cons_eq_ok {t : Tree} :
    typedNamesAfter pending (t :: ts) = .ok ns ↔
      ∃ name, t = .word name ∧
        ((name.text ≠ "-" ∧ typedNamesAfter (name :: pending) ts = .ok ns) ∨
          (name.text = "-" ∧ pending ≠ [] ∧ ∃ type rest others, ts = .word type :: rest ∧
            type.text ≠ "-" ∧ typedNamesAfter [] rest = .ok others ∧
            ns = pending.reverse.map (⟨·, some type⟩) ++ others)) := by
  simp only [typedNamesAfter, bind_eq_ok, Tree.expectWord_eq_ok]
  refine exists_congr fun name => and_congr_right fun _ => ?_
  by_cases hdash : name.text = "-"
  · simp only [hdash, ne_eq, not_true_eq_false, if_false, false_and, true_and, false_or]
    rcases ts with _ | ⟨⟨type⟩ | ⟨e, items⟩ | ⟨e, err⟩, rest⟩
    · simp
    · simp only [ite_error_eq_ok, List.isEmpty_iff, bind_eq_ok, pure_eq_ok]
      constructor
      · rintro ⟨htype, hne, others, hothers, rfl⟩
        exact ⟨hne, type, rest, others, rfl, htype, hothers, rfl⟩
      · rintro ⟨hne, type', rest', others, heq, htype, hothers, rfl⟩
        obtain ⟨rfl, rfl⟩ : type = type' ∧ rest = rest' := by simpa using heq
        exact ⟨htype, hne, others, hothers, rfl⟩
    · simp
    · simp
  · simp [hdash]

/-- What waits for its type and what is still to be read are a typed list together. -/
theorem exists_listing_of_typedNamesAfter (hpending : ∀ name ∈ pending, name.text ≠ "-")
    (h : typedNamesAfter pending ts = .ok ns) :
    ∃ l : TypedListing, pending.reverse.map .word ++ ts = l.words.map .word ∧ ns = l.names := by
  -- a dash takes its type with it, so the list gets shorter by more than one
  induction hn : ts.length using Nat.strongRecOn generalizing pending ts ns with
  | ind n ih =>
    have hreverse : ∀ name ∈ pending.reverse, name.text ≠ "-" := fun name hname =>
      hpending name (List.mem_reverse.1 hname)
    cases ts with
    | nil =>
      obtain rfl : pending.reverse.map (⟨·, none⟩) = ns := by simpa [typedNamesAfter] using h
      exact ⟨⟨[], pending.reverse, hreverse⟩, by simp [TypedListing.words], by simp [TypedListing.names]⟩
    | cons t ts =>
      rw [List.length_cons] at hn
      obtain ⟨name, rfl, ⟨hname, hrest⟩ | ⟨hdash, hne, type, rest, others, rfl, htype, hrest, rfl⟩⟩ :=
        typedNamesAfter_cons_eq_ok.1 h
      · obtain ⟨l, hwords, rfl⟩ :=
          ih ts.length (by omega) (List.forall_mem_cons.2 ⟨hname, hpending⟩) hrest rfl
        exact ⟨l, by simpa using hwords, rfl⟩
      · rw [List.length_cons] at hn
        obtain ⟨l, hwords, rfl⟩ := ih rest.length (by omega) (by simp) hrest rfl
        obtain rfl : rest = l.words.map .word := by simpa using hwords
        let g : TypedGroup :=
          ⟨pending.reverse, name, type, by simpa using hne, hreverse, hdash, htype⟩
        exact ⟨.cons g l, by simp [TypedGroup.words, g], by simp [TypedGroup.typed, g]⟩

theorem typedNamesAfter_append_names (h : ∀ name ∈ es, name.text ≠ "-") :
    typedNamesAfter pending (es.map .word ++ ts) = typedNamesAfter (es.reverse ++ pending) ts := by
  induction es generalizing pending with
  | nil => rfl
  | cons e es ih =>
    rw [List.forall_mem_cons] at h
    rw [List.map_cons, List.cons_append, typedNamesAfter]
    simp only [Tree.expectWord, bind, Except.bind, if_pos h.1, ih h.2]
    simp

theorem typedNames_listing (l : TypedListing) : typedNames (l.words.map .word) = .ok l.names := by
  induction l using TypedListing.induct with
  | untyped names hnames =>
    have hread : typedNamesAfter [] (names.map .word ++ []) = typedNamesAfter (names.reverse ++ []) [] :=
      typedNamesAfter_append_names hnames
    simpa [typedNames, typedNamesAfter, TypedListing.words, TypedListing.names] using hread
  | cons g l ih =>
    have hwords : (TypedListing.cons g l).words.map Tree.word =
        g.names.map .word ++ (.word g.dash :: .word g.type :: l.words.map .word) := by
      simp [TypedGroup.words]
    rw [typedNames, hwords, typedNamesAfter_append_names g.names_ne_dash, List.append_nil]
    refine typedNamesAfter_cons_eq_ok.2 ⟨g.dash, rfl, Or.inr ⟨g.dash_text, ?_, ?_⟩⟩
    · simpa using g.names_ne_nil
    · exact ⟨g.type, _, l.names, rfl, g.type_ne_dash, ih, by simp [TypedGroup.typed]⟩

theorem typedNames_eq_ok_iff_listing :
    typedNames ts = .ok ns ↔ ∃ l : TypedListing, ts = l.words.map .word ∧ ns = l.names := by
  constructor
  · intro h
    simpa using exists_listing_of_typedNamesAfter (by simp) h
  · rintro ⟨l, rfl, rfl⟩
    exact typedNames_listing l

/-- Reading a typed list is exact. Trees are read if and only if they are the words of groups, each of
one name or more with a dash and a type behind them, and of names without a type at the end. The names
are given in this order, each with the type of its own group, and there is no second way to take the
words apart. -/
theorem typedNames_exact :
    (∀ ts ns, typedNames ts = .ok ns ↔
      ∃ l : TypedListing, ts = l.words.map .word ∧ ns = l.names) ∧
    Function.Injective TypedListing.words :=
  ⟨fun _ _ => typedNames_eq_ok_iff_listing, TypedListing.words_injective⟩

example : ∃ ns, typedNames (["a", "b", "-", "truck", "c"].map fun w => .word (.ofString w)) = .ok ns ∧
    ns.map (fun n => (n.name.text, n.type.map Excerpt.text)) =
      [("a", some "truck"), ("b", some "truck"), ("c", none)] := by
  decide +kernel

end Pddl
