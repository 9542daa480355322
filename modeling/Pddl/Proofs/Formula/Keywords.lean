import Mathlib.Data.List.Induction
import Pddl.Proofs.Formula.Terms
import Pddl.Proofs.TypedList

namespace Pddl

namespace Keyword

def text : Keyword → String
  | .and => "and"
  | .or => "or"
  | .forAll => "forall"
  | .thereIs => "exists"
  | .not => "not"
  | .imply => "imply"
  | .when => "when"
  | .probabilistic => "probabilistic"
  | .timePoint => "at"
  | .timeSpan => "over"
  | .different => "different"
  | .relation r => r.text
  | .update u => u.text
  | .predicate => ""

def headsAtom : Keyword → Bool
  | .timePoint => true
  | .timeSpan => true
  | .different => true
  | .predicate => true
  | _ => false

theorem text_ofText {s : String} {k : Keyword} (h : ofText s = k) (hk : k ≠ .predicate) :
    k.text = s := by
  subst h
  unfold ofText at hk ⊢
  split <;> try rfl
  split
  · rename_i r hr
    simpa [text] using List.find?_some hr
  · split
    · rename_i u hu
      simpa [text] using List.find?_some hu
    · simp_all

theorem ofText_relation (r : Relation) : ofText r.text = .relation r := by
  cases r <;> rfl

theorem ofText_update (u : Update) : ofText u.text = .update u := by
  cases u <;> rfl

theorem ofText_text {k : Keyword} (hk : k ≠ .predicate) : ofText k.text = k := by
  cases k with
  | relation r => exact ofText_relation r
  | update u => exact ofText_update u
  | predicate => exact absurd rfl hk
  | _ => rfl

end Keyword

namespace Time

def keyword : Time → Keyword
  | .atStart => .timePoint
  | .atEnd => .timePoint
  | .overAll => .timeSpan

def qualifier : Time → String
  | .atStart => "start"
  | .atEnd => "end"
  | .overAll => "all"

theorem ofWords?_eq_some {k : Keyword} {t : Tree} {time : Time} :
    ofWords? k t = some time ↔ k = time.keyword ∧ t.shape = .word time.qualifier := by
  simp only [← Tree.isWord_iff_shape]
  cases k with
  | timePoint =>
    cases t with
    | word e =>
      by_cases hstart : e.text = "start"
      · cases time <;> simp [ofWords?, keyword, qualifier, Tree.isWord, hstart]
      · by_cases hend : e.text = "end" <;>
          cases time <;> simp [ofWords?, keyword, qualifier, Tree.isWord, hstart, hend]
    | list e items => simp [ofWords?, Tree.isWord]
    | broken e err => simp [ofWords?, Tree.isWord]
  | timeSpan => cases time <;> simp [ofWords?, keyword, qualifier]
  | _ => cases time <;> simp [ofWords?, keyword]

end Time

theorem Scope.contains_eq_false {scope : Scope} {name : String} :
    scope.contains name = false ↔ ∀ e ∈ scope, e.name ≠ name := by
  simp [contains, find?]

/-- Names are bound in turn: they differ from each other and from all names visible before. -/
protected theorem Scope.bind_eq_ok {scope inner : Scope} {es : List Entity} :
    scope.bind es = .ok inner ↔ inner = es.reverse ++ scope ∧ (es.map Entity.name).Nodup ∧
      ∀ e ∈ es, ∀ d ∈ scope, d.name ≠ e.name := by
  induction es generalizing scope with
  | nil => simp [Scope.bind, eq_comm]
  | cons e es ih =>
    rw [Scope.bind, ite_error_eq_ok, Bool.not_eq_true, contains_eq_false, ih]
    simp only [List.map_cons, List.nodup_cons, List.mem_map, not_exists, not_and,
      List.forall_mem_cons, List.reverse_cons, List.append_assoc, List.singleton_append]
    constructor
    · rintro ⟨he, rfl, hnodup, hes⟩
      exact ⟨rfl, ⟨fun d hd => Ne.symm (hes d hd).1, hnodup⟩, he, fun d hd => (hes d hd).2⟩
    · rintro ⟨rfl, ⟨hne, hnodup⟩, he, hes⟩
      exact ⟨he, rfl, hnodup, fun d hd => ⟨Ne.symm (hne d hd), hes d hd⟩⟩

def Number.IsProbability (p : Number) : Prop := (Number.zero.le p && p.le .one) = true

theorem readProbability_eq_ok {t : Tree} {p : Number} :
    readProbability t = .ok p ↔
      ∃ e, t = .word e ∧ Number.ofChars? e.text.toList = some p ∧ p.IsProbability := by
  simp only [readProbability, bind_eq_ok, Tree.expectWord_eq_ok, readNumber_eq_ok]
  refine exists_congr fun e => and_congr_right fun _ => ?_
  constructor
  · rintro ⟨q, hq, h⟩
    split at h
    · rename_i hprobability
      obtain rfl : q = p := by simpa using h
      exact ⟨hq, hprobability⟩
    · simp at h
  · rintro ⟨hp, hprobability⟩
    exact ⟨p, hp, if_pos hprobability⟩

/-- A word and another tree in turn. -/
def Tree.pairs (ps : List (Excerpt × Tree)) : List Tree := ps.flatMap fun p => [.word p.1, p.2]

theorem Tree.mem_pairs {ps : List (Excerpt × Tree)} {p : Excerpt × Tree} (h : p ∈ ps) :
    p.2 ∈ pairs ps :=
  List.mem_flatMap.2 ⟨p, h, by simp⟩

theorem Tree.length_pairs (ps : List (Excerpt × Tree)) : (pairs ps).length % 2 = 0 := by
  have hlen : (pairs ps).length = ps.length * 2 := by simp [pairs]
  omega

theorem Tree.map_shape_pairs (ps : List (Excerpt × Tree)) :
    (pairs ps).map shape =
      (ps.map fun p => (p.1.text, p.2.shape)).flatMap fun a => [.word a.1, a.2] := by
  induction ps with
  | nil => rfl
  | cons p ps ih => simpa [pairs] using ih

theorem Tree.eq_pairs_of_shapes {ts : List Tree} {args : List (String × Shape)}
    (h : ts.map shape = args.flatMap fun a => [.word a.1, a.2]) :
    ∃ ps, ts = pairs ps ∧ ps.map (fun p => (p.1.text, p.2.shape)) = args := by
  induction args generalizing ts with
  | nil => exact ⟨[], by simpa [pairs] using h, rfl⟩
  | cons a args ih =>
    obtain ⟨t, us, rfl, ht, hus⟩ := List.map_eq_cons_iff.1 h
    obtain ⟨u, vs, rfl, hu, hvs⟩ := List.map_eq_cons_iff.1 hus
    obtain ⟨e, rfl, he⟩ := eq_word_of_shape ht
    obtain ⟨ps, rfl, rfl⟩ := ih hvs
    exact ⟨(e, u) :: ps, rfl, by simp [he, hu]⟩

theorem Mode.require_eq_ok {mode allowed : Mode} {keyword : Excerpt} {u : Unit} :
    mode.require allowed keyword = .ok u ↔ mode = allowed := by
  unfold require
  split <;> simp_all

theorem Scope.readDifferent_eq_ok {scope : Scope} {keyword : Excerpt} {args : List Tree}
    {f : Formula} :
    scope.readDifferent keyword args = .ok f ↔
      ∃ a b, args.map Tree.shape = [.word a.name, .word b.name] ∧ scope.Sees a ∧ scope.Sees b ∧
        .different a b = f := by
  rcases args with _ | ⟨left, _ | ⟨right, _ | ⟨third, rest⟩⟩⟩ <;>
    simp only [readDifferent, wrongCount, reduceCtorEq, List.map_cons, List.map_nil, List.cons.injEq,
      and_false, false_and, exists_false, bind_eq_ok, pure_eq_ok, resolve_eq_ok, and_true]
  constructor
  · rintro ⟨a, ⟨hleft, ha⟩, b, ⟨hright, hb⟩, rfl⟩
    exact ⟨a, b, ⟨hleft, hright⟩, ha, hb, rfl⟩
  · rintro ⟨a, b, ⟨hleft, hright⟩, ha, hb, rfl⟩
    exact ⟨a, ⟨hleft, ha⟩, b, ⟨hright, hb⟩, rfl⟩

namespace Symbols

variable {symbols : Symbols} {scope : Scope} {mode : Mode}

theorem readUpdate_eq_ok {keyword : Excerpt} {u : Update} {args : List Tree} {f : Formula} :
    symbols.readUpdate scope keyword u args = .ok f ↔
      ∃ a s x, args.map Tree.shape = [a.shape, s] ∧
        a.Checked symbols.functions symbols.types scope ∧ symbols.Values scope s x ∧
          .assign u a x = f := by
  rcases args with _ | ⟨target, _ | ⟨value, _ | ⟨third, rest⟩⟩⟩ <;>
    simp only [readUpdate, wrongCount, reduceCtorEq, List.map_cons, List.map_nil, List.cons.injEq,
      and_false, false_and, exists_false, bind_eq_ok, pure_eq_ok, readTerm_eq_ok, readNumeric_eq_ok,
      and_true]
  constructor
  · rintro ⟨a, ⟨htarget, ha⟩, x, hx, rfl⟩
    exact ⟨a, _, x, ⟨htarget, rfl⟩, ha, hx, rfl⟩
  · rintro ⟨a, s, x, ⟨htarget, rfl⟩, ha, hx, rfl⟩
    exact ⟨a, ⟨htarget, ha⟩, x, hx, rfl⟩

/-- A list on the left makes it a comparison, two words an equality. -/
theorem readRelation_eq_ok {keyword : Excerpt} {r : Relation} {args : List Tree} {f : Formula} :
    symbols.readRelation scope keyword r args = .ok f ↔
      (∃ a s x, args.map Tree.shape = [a.shape, s] ∧
        a.Checked symbols.functions symbols.types scope ∧ symbols.Values scope s x ∧
          .comparison r a x = f) ∨
      (r = .equal ∧ ∃ a b, args.map Tree.shape = [.word a.name, .word b.name] ∧ scope.Sees a ∧
        scope.Sees b ∧ .equal a b = f) := by
  rcases args with _ | ⟨left, _ | ⟨right, _ | ⟨third, rest⟩⟩⟩ <;>
    simp only [readRelation, wrongCount, reduceCtorEq, List.map_cons, List.map_nil, List.cons.injEq,
      and_false, false_and, exists_false, or_self, and_true]
  cases left with
  | word e =>
    have hword : ∀ a : Application, Shape.word e.text ≠ a.shape := by simp [Application.shape]
    simp only [Tree.isList, Bool.false_eq_true, if_false, Tree.shape_word, hword, false_and,
      exists_false, false_or]
    by_cases hr : r = .equal
    · cases right with
      | word w =>
        simp only [hr, decide_true, Bool.not_false, Bool.and_true, if_true, bind_eq_ok,
          Scope.resolve_eq_ok, pure_eq_ok, true_and, Tree.shape_word]
        constructor
        · rintro ⟨a, ⟨hleft, ha⟩, b, ⟨hright, hb⟩, rfl⟩
          exact ⟨a, b, ⟨hleft, hright⟩, ha, hb, rfl⟩
        · rintro ⟨a, b, ⟨hleft, hright⟩, ha, hb, rfl⟩
          exact ⟨a, ⟨hleft, ha⟩, b, ⟨hright, hb⟩, rfl⟩
      | list w items => simp
      | broken w err => simp
    · simp [hr]
  | list e items =>
    have hlist : ∀ w, (Tree.list e items).shape ≠ .word w := by simp
    simp only [Tree.isList, if_true, bind_eq_ok, readTerm_eq_ok, readNumeric_eq_ok, pure_eq_ok,
      hlist, false_and, and_false, exists_false, or_false]
    constructor
    · rintro ⟨a, ⟨hleft, ha⟩, x, hx, rfl⟩
      exact ⟨a, _, x, ⟨hleft, rfl⟩, ha, hx, rfl⟩
    · rintro ⟨a, s, x, ⟨hleft, rfl⟩, ha, hx, rfl⟩
      exact ⟨a, ⟨hleft, ha⟩, x, hx, rfl⟩
  | broken e err =>
    have hbroken : ∀ a : Application, Shape.broken ≠ a.shape := by simp [Application.shape]
    simp [Tree.isList, readTerm, hbroken, bind, Except.bind]

theorem readFormulas_eq_ok {ts : List Tree} {fs : List Formula} :
    symbols.readFormulas scope mode ts = .ok fs ↔
      List.Forall₂ (fun t f => symbols.readFormula "a formula" scope mode t = .ok f) ts fs := by
  induction ts generalizing fs with
  | nil => cases fs <;> simp [readFormulas]
  | cons t ts ih =>
    simp only [readFormulas, bind_eq_ok, ih, pure_eq_ok, List.forall₂_cons_left_iff]
    constructor
    · rintro ⟨f, hf, fs, hfs, rfl⟩
      exact ⟨f, fs, hf, hfs, rfl⟩
    · rintro ⟨f, fs, hf, hfs, rfl⟩
      exact ⟨f, hf, fs, hfs, rfl⟩

theorem readOutcomes_eq_ok {ts : List Tree} {os : List (Number × Formula)}
    (heven : ts.length % 2 = 0) :
    symbols.readOutcomes scope ts = .ok os ↔
      ∃ ps, ts = Tree.pairs ps ∧
        List.Forall₂ (fun p o => (Number.ofChars? p.1.text.toList = some o.1 ∧ o.1.IsProbability) ∧
          symbols.readFormula "an outcome" scope .effect p.2 = .ok o.2) ps os := by
  induction ts using List.twoStepInduction generalizing os with
  | nil =>
    simp only [readOutcomes, Except.ok.injEq]
    constructor
    · rintro rfl
      exact ⟨[], rfl, .nil⟩
    · rintro ⟨ps, hps, hall⟩
      cases hall with
      | nil => rfl
      | cons => simp [Tree.pairs] at hps
  | singleton t => simp at heven
  | cons_cons t u ts ih _ =>
    have heven' : ts.length % 2 = 0 := by
      simp only [List.length_cons] at heven
      omega
    simp only [readOutcomes, bind_eq_ok, pure_eq_ok, readProbability_eq_ok, ih heven']
    constructor
    · rintro ⟨p, ⟨e, rfl, hp⟩, f, hf, os, ⟨ps, rfl, hall⟩, rfl⟩
      exact ⟨(e, u) :: ps, rfl, .cons ⟨hp, hf⟩ hall⟩
    · rintro ⟨ps, hps, hall⟩
      cases hall with
      | nil => simp [Tree.pairs] at hps
      | @cons p o ps os hhead hall =>
        obtain ⟨rfl, rfl, rfl⟩ : t = .word p.1 ∧ u = p.2 ∧ ts = Tree.pairs ps := by
          simpa [Tree.pairs] using hps
        exact ⟨o.1, ⟨p.1, rfl, hhead.1⟩, o.2, hhead.2, os, ⟨ps, rfl, hall⟩, rfl⟩

theorem readQuantified_eq_ok {keyword : Excerpt} {quantifier : List Entity → Formula → Formula}
    {args : List Tree} {f : Formula} :
    symbols.readQuantified keyword quantifier scope mode args = .ok f ↔
      ∃ e trees body binders, args = [.list e trees, body] ∧
        symbols.types.Declares .reject (trees.map Tree.shape) binders ∧ body.isList = true ∧
        ((binders = [] ∧ symbols.readFormula "a formula" scope mode body = .ok f) ∨
          (binders ≠ [] ∧ ∃ inner g, scope.bind binders = .ok inner ∧
            symbols.readFormula "a formula" inner mode body = .ok g ∧ quantifier binders g = f)) := by
  rcases args with _ | ⟨list, _ | ⟨body, _ | ⟨third, rest⟩⟩⟩ <;>
    simp only [readQuantified, wrongCount, reduceCtorEq, List.cons.injEq, and_false, false_and,
      exists_false, and_true]
  simp only [bind_eq_ok, Tree.expectItems_eq_ok, Tree.expectList_eq_ok,
    Types.declaredEntities_eq_ok, List.isEmpty_iff]
  constructor
  · rintro ⟨trees, ⟨e, rfl⟩, binders, hbinders, _, ⟨hlist, -⟩, h⟩
    refine ⟨e, trees, body, binders, ⟨rfl, rfl⟩, hbinders, hlist, ?_⟩
    split at h
    · rename_i hempty
      exact Or.inl ⟨hempty, h⟩
    · rename_i hne
      simp only [bind_eq_ok, pure_eq_ok] at h
      obtain ⟨inner, hinner, g, hg, rfl⟩ := h
      exact Or.inr ⟨hne, inner, g, hinner, hg, rfl⟩
  · rintro ⟨e, trees, _, binders, ⟨rfl, rfl⟩, hbinders, hlist, h⟩
    refine ⟨trees, ⟨e, rfl⟩, binders, hbinders, body, ⟨hlist, rfl⟩, ?_⟩
    rcases h with ⟨hempty, hf⟩ | ⟨hne, inner, g, hinner, hg, rfl⟩
    · rw [if_pos hempty, hf]
    · simp only [if_neg hne, bind_eq_ok, pure_eq_ok]
      exact ⟨inner, hinner, g, hg, rfl⟩

/-- A time qualifier in front of a list qualifies it; everything else behind the keyword makes an
atom. -/
theorem readTimed_eq_ok {keyword : Excerpt} {kind : Keyword} {args : List Tree} {f : Formula} :
    symbols.readTimed keyword kind scope mode args = .ok f ↔
      (∃ time qualifier body g, args = [qualifier, body] ∧
        Time.ofWords? kind qualifier = some time ∧ body.isList = true ∧
        symbols.readFormula "a formula" scope mode body = .ok g ∧ .timed time g = f) ∨
      ((∀ time qualifier body, args = [qualifier, body] → Time.ofWords? kind qualifier = some time →
        body.isList = false) ∧
        ∃ a, symbols.readAtom scope keyword args = .ok a ∧ .atom a = f) := by
  rcases args with _ | ⟨qualifier, _ | ⟨body, _ | ⟨third, rest⟩⟩⟩
  case cons.cons.nil =>
    rw [readTimed]
    split
    · rename_i time htime hlist
      simp [htime, hlist, map_eq_ok]
    · rename_i hnot
      have hatom : ∀ time, Time.ofWords? kind qualifier = some time → body.isList = false :=
        fun time htime => by simpa using hnot time htime
      simp only [bind_eq_ok, pure_eq_ok]
      constructor
      · rintro ⟨a, ha, rfl⟩
        refine Or.inr ⟨?_, a, ha, rfl⟩
        rintro time _ _ ⟨rfl, rfl⟩ htime
        exact hatom time htime
      · rintro (⟨time, _, _, g, ⟨rfl, rfl⟩, htime, hlist, -⟩ | ⟨-, h⟩)
        · simp [hatom time htime] at hlist
        · exact h
  all_goals simp [readTimed, map_eq_ok]

section

variable {what : String} {e w : Excerpt} {head : Tree} {args : List Tree} {f : Formula}

theorem exists_word_of_readFormula
    (h : symbols.readFormula what scope mode (.list e (head :: args)) = .ok f) :
    ∃ w, head = .word w := by
  rw [readFormula, bind_eq_ok] at h
  obtain ⟨w, hw, -⟩ := h
  exact ⟨w, Tree.expectWord_eq_ok.1 hw⟩

theorem readFormula_and (hk : Keyword.ofText w.text = .and) :
    symbols.readFormula what scope mode (.list e (.word w :: args)) = .ok f ↔
      ∃ fs, List.Forall₂ (fun t f => symbols.readFormula "a formula" scope mode t = .ok f) args fs ∧
        .and fs = f := by
  simp only [readFormula, Tree.expectWord, ok_bind, hk, bind_eq_ok, readFormulas_eq_ok, pure_eq_ok]

theorem readFormula_or (hk : Keyword.ofText w.text = .or) :
    symbols.readFormula what scope mode (.list e (.word w :: args)) = .ok f ↔
      ∃ fs, List.Forall₂ (fun t f => symbols.readFormula "a formula" scope mode t = .ok f) args fs ∧
        .or fs = f := by
  simp only [readFormula, Tree.expectWord, ok_bind, hk, bind_eq_ok, readFormulas_eq_ok, pure_eq_ok]

theorem readFormula_forAll (hk : Keyword.ofText w.text = .forAll) :
    symbols.readFormula what scope mode (.list e (.word w :: args)) =
      symbols.readQuantified w .forAll scope mode args := by
  simp only [readFormula, Tree.expectWord, ok_bind, hk]

theorem readFormula_thereIs (hk : Keyword.ofText w.text = .thereIs) :
    symbols.readFormula what scope mode (.list e (.word w :: args)) =
      symbols.readQuantified w .thereIs scope mode args := by
  simp only [readFormula, Tree.expectWord, ok_bind, hk]

theorem readFormula_not (hk : Keyword.ofText w.text = .not) :
    symbols.readFormula what scope mode (.list e (.word w :: args)) = .ok f ↔
      ∃ inner g, args = [inner] ∧ symbols.readFormula "a formula" scope mode inner = .ok g ∧
        (mode = .condition ∧ .not g = f ∨ mode = .effect ∧ .delete g = f) := by
  simp only [readFormula, Tree.expectWord, ok_bind, hk]
  rcases args with _ | ⟨inner, _ | ⟨second, rest⟩⟩
  case cons.nil => cases mode <;> simp [map_eq_ok]
  all_goals simp [wrongCount]

theorem readFormula_imply (hk : Keyword.ofText w.text = .imply) :
    symbols.readFormula what scope mode (.list e (.word w :: args)) = .ok f ↔
      mode = .condition ∧ ∃ left right l r, args = [left, right] ∧
        symbols.readFormula "a formula" scope mode left = .ok l ∧
        symbols.readFormula "a formula" scope mode right = .ok r ∧ .imply l r = f := by
  simp only [readFormula, Tree.expectWord, ok_bind, hk, bind_eq_ok, Mode.require_eq_ok]
  rcases args with _ | ⟨left, _ | ⟨right, _ | ⟨third, rest⟩⟩⟩
  case cons.cons.nil => simp [bind_eq_ok, map_eq_ok]
  all_goals simp [wrongCount]

theorem readFormula_when (hk : Keyword.ofText w.text = .when) :
    symbols.readFormula what scope mode (.list e (.word w :: args)) = .ok f ↔
      mode = .effect ∧ ∃ left right c g, args = [left, right] ∧
        symbols.readFormula "a condition" scope .condition left = .ok c ∧
        symbols.readFormula "an effect" scope .effect right = .ok g ∧ .when c g = f := by
  simp only [readFormula, Tree.expectWord, ok_bind, hk, bind_eq_ok, Mode.require_eq_ok]
  rcases args with _ | ⟨left, _ | ⟨right, _ | ⟨third, rest⟩⟩⟩
  case cons.cons.nil => simp [bind_eq_ok, map_eq_ok]
  all_goals simp [wrongCount]

theorem readFormula_probabilistic (hk : Keyword.ofText w.text = .probabilistic) :
    symbols.readFormula what scope mode (.list e (.word w :: args)) = .ok f ↔
      mode = .effect ∧ ∃ ps os, args = Tree.pairs ps ∧
        List.Forall₂ (fun p o => (Number.ofChars? p.1.text.toList = some o.1 ∧ o.1.IsProbability) ∧
          symbols.readFormula "an outcome" scope .effect p.2 = .ok o.2) ps os ∧
        greatestTotal.lt (Formula.totalProbability os) = false ∧ .probabilistic os = f := by
  simp only [readFormula, Tree.expectWord, ok_bind, hk, bind_eq_ok, Mode.require_eq_ok,
    ite_error_eq_ok, ne_eq, not_not, pure_eq_ok, Bool.not_eq_true]
  constructor
  · rintro ⟨-, hmode, heven, os, hos, htotal, rfl⟩
    obtain ⟨ps, rfl, hall⟩ := (readOutcomes_eq_ok heven).1 hos
    exact ⟨hmode, ps, os, rfl, hall, htotal, rfl⟩
  · rintro ⟨hmode, ps, os, rfl, hall, htotal, rfl⟩
    have heven : (Tree.pairs ps).length % 2 = 0 := Tree.length_pairs ps
    exact ⟨(), hmode, heven, os, (readOutcomes_eq_ok heven).2 ⟨ps, rfl, hall⟩, htotal, rfl⟩

theorem readFormula_timed (time : Time) (hk : Keyword.ofText w.text = time.keyword) :
    symbols.readFormula what scope mode (.list e (.word w :: args)) =
      symbols.readTimed w time.keyword scope mode args := by
  simp only [readFormula, Tree.expectWord, ok_bind, hk]
  cases time <;> rfl

theorem readFormula_different (hk : Keyword.ofText w.text = .different)
    (hbuiltin : symbols.predicate? w.text = none) :
    symbols.readFormula what scope mode (.list e (.word w :: args)) =
      scope.readDifferent w args := by
  simp [readFormula, Tree.expectWord, ok_bind, hk, hbuiltin]

theorem readFormula_declared {signature : Signature} (hk : Keyword.ofText w.text = .different)
    (hdeclared : symbols.predicate? w.text = some signature) :
    symbols.readFormula what scope mode (.list e (.word w :: args)) = .ok f ↔
      ∃ a, symbols.readAtom scope w args = .ok a ∧ .atom a = f := by
  simp [readFormula, Tree.expectWord, ok_bind, hk, hdeclared, map_eq_ok]

theorem readFormula_predicate (hk : Keyword.ofText w.text = .predicate) :
    symbols.readFormula what scope mode (.list e (.word w :: args)) = .ok f ↔
      ∃ a, symbols.readAtom scope w args = .ok a ∧ .atom a = f := by
  simp [readFormula, Tree.expectWord, ok_bind, hk, map_eq_ok]

theorem readFormula_relation {r : Relation} (hk : Keyword.ofText w.text = .relation r) :
    symbols.readFormula what scope mode (.list e (.word w :: args)) =
      symbols.readRelation scope w r args := by
  simp only [readFormula, Tree.expectWord, ok_bind, hk]

theorem readFormula_update {u : Update} (hk : Keyword.ofText w.text = .update u) :
    symbols.readFormula what scope mode (.list e (.word w :: args)) = .ok f ↔
      mode = .effect ∧ symbols.readUpdate scope w u args = .ok f := by
  simp only [readFormula, Tree.expectWord, ok_bind, hk, bind_eq_ok, Mode.require_eq_ok]
  simp

end

end Symbols

end Pddl
