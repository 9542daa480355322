import Pddl.Proofs.Formula.Keywords

namespace Pddl

/-- The formulas that shapes denote. -/
inductive Symbols.Denotes (symbols : Symbols) : Scope → Mode → Shape → Formula → Prop where
  | trivial {scope : Scope} {mode : Mode} : Denotes symbols scope mode (.list []) .trivial
  | atom {scope : Scope} {mode : Mode} {a : Application}
      (hhead : (Keyword.ofText a.head).headsAtom = true)
      (h : a.Checked symbols.predicates symbols.types scope) :
      Denotes symbols scope mode a.shape (.atom a)
  | not {scope : Scope} {s : Shape} {f : Formula} (h : Denotes symbols scope .condition s f) :
      Denotes symbols scope .condition (.list [.word "not", s]) (.not f)
  | delete {scope : Scope} {s : Shape} {f : Formula} (h : Denotes symbols scope .effect s f) :
      Denotes symbols scope .effect (.list [.word "not", s]) (.delete f)
  | and {scope : Scope} {mode : Mode} {ss : List Shape} {fs : List Formula}
      (hlen : ss.length = fs.length)
      (h : ∀ s f, (s, f) ∈ ss.zip fs → Denotes symbols scope mode s f) :
      Denotes symbols scope mode (.list (.word "and" :: ss)) (.and fs)
  | or {scope : Scope} {mode : Mode} {ss : List Shape} {fs : List Formula}
      (hlen : ss.length = fs.length)
      (h : ∀ s f, (s, f) ∈ ss.zip fs → Denotes symbols scope mode s f) :
      Denotes symbols scope mode (.list (.word "or" :: ss)) (.or fs)
  | imply {scope : Scope} {s u : Shape} {l r : Formula}
      (hleft : Denotes symbols scope .condition s l)
      (hright : Denotes symbols scope .condition u r) :
      Denotes symbols scope .condition (.list [.word "imply", s, u]) (.imply l r)
  | forAll {scope inner : Scope} {mode : Mode} {ss : List Shape} {s : Shape}
      {binders : List Entity} {f : Formula}
      (hbinders : symbols.types.Declares .reject ss binders) (hne : binders ≠ [])
      (hbind : scope.bind binders = .ok inner) (h : Denotes symbols inner mode s f) :
      Denotes symbols scope mode (.list [.word "forall", .list ss, s]) (.forAll binders f)
  | thereIs {scope inner : Scope} {mode : Mode} {ss : List Shape} {s : Shape}
      {binders : List Entity} {f : Formula}
      (hbinders : symbols.types.Declares .reject ss binders) (hne : binders ≠ [])
      (hbind : scope.bind binders = .ok inner) (h : Denotes symbols inner mode s f) :
      Denotes symbols scope mode (.list [.word "exists", .list ss, s]) (.thereIs binders f)
  /-- Without variables a quantifier says nothing. -/
  | unbound {scope : Scope} {mode : Mode} {quantifier : String} {ss : List Shape} {s : Shape}
      {f : Formula} (hquantifier : quantifier = "forall" ∨ quantifier = "exists")
      (hbinders : symbols.types.Declares .reject ss []) (h : Denotes symbols scope mode s f) :
      Denotes symbols scope mode (.list [.word quantifier, .list ss, s]) f
  | when {scope : Scope} {s u : Shape} {c e : Formula}
      (hcondition : Denotes symbols scope .condition s c)
      (heffect : Denotes symbols scope .effect u e) :
      Denotes symbols scope .effect (.list [.word "when", s, u]) (.when c e)
  | assign {scope : Scope} {u : Update} {a : Application} {s : Shape} {x : Numeric}
      (htarget : a.Checked symbols.functions symbols.types scope)
      (hvalue : symbols.Values scope s x) :
      Denotes symbols scope .effect (.list [.word u.text, a.shape, s]) (.assign u a x)
  | probabilistic {scope : Scope} {args : List (String × Shape)}
      {outcomes : List (Number × Formula)} (hlen : args.length = outcomes.length)
      (hprobability : ∀ a o, (a, o) ∈ args.zip outcomes →
        Number.ofChars? a.1.toList = some o.1 ∧ o.1.IsProbability)
      (h : ∀ a o, (a, o) ∈ args.zip outcomes → Denotes symbols scope .effect a.2 o.2)
      (htotal : greatestTotal.lt (Formula.totalProbability outcomes) = false) :
      Denotes symbols scope .effect
        (.list (.word "probabilistic" :: args.flatMap fun a => [.word a.1, a.2]))
        (.probabilistic outcomes)
  | comparison {scope : Scope} {mode : Mode} {r : Relation} {a : Application} {s : Shape}
      {x : Numeric} (hterm : a.Checked symbols.functions symbols.types scope)
      (hvalue : symbols.Values scope s x) :
      Denotes symbols scope mode (.list [.word r.text, a.shape, s]) (.comparison r a x)
  | equal {scope : Scope} {mode : Mode} {a b : Entity} (ha : scope.Sees a) (hb : scope.Sees b) :
      Denotes symbols scope mode (.list [.word "=", .word a.name, .word b.name]) (.equal a b)
  | different {scope : Scope} {mode : Mode} {a b : Entity}
      (hbuiltin : symbols.predicate? "different" = none) (ha : scope.Sees a) (hb : scope.Sees b) :
      Denotes symbols scope mode (.list [.word "different", .word a.name, .word b.name])
        (.different a b)
  | timed {scope : Scope} {mode : Mode} {s : Shape} {f : Formula} (time : Time)
      (h : Denotes symbols scope mode s f) :
      Denotes symbols scope mode
        (.list [.word time.keyword.text, .word time.qualifier, s]) (.timed time f)

namespace Symbols

variable {symbols : Symbols} {scope : Scope} {mode : Mode}

theorem denotes_atom {w : Excerpt} {args : List Tree} {a : Application}
    (hhead : (Keyword.ofText w.text).headsAtom = true)
    (h : symbols.readAtom scope w args = .ok a) :
    symbols.Denotes scope mode (.list (.word w.text :: args.map Tree.shape)) (.atom a) := by
  obtain ⟨hw, hargs, hchecked⟩ := readAtom_eq_ok.1 h
  rw [hw, hargs]
  exact .atom (hw ▸ hhead) hchecked

theorem denotes_of_readTimed {w : Excerpt} {args : List Tree} {kind : Keyword} {f : Formula}
    (hk : Keyword.ofText w.text = kind) (hhead : kind.headsAtom = true) (hw : w.text = kind.text)
    (ih : ∀ t ∈ args, ∀ {g}, symbols.readFormula "a formula" scope mode t = .ok g →
      symbols.Denotes scope mode t.shape g)
    (h : symbols.readTimed w kind scope mode args = .ok f) :
    symbols.Denotes scope mode (.list (.word w.text :: args.map Tree.shape)) f := by
  rcases readTimed_eq_ok.1 h with ⟨time, qualifier, body, g, rfl, htime, -, hg, rfl⟩ | ⟨-, a, ha, rfl⟩
  · obtain ⟨hkey, hqualifier⟩ := Time.ofWords?_eq_some.1 htime
    rw [hw, hkey, List.map_cons, List.map_cons, List.map_nil, hqualifier]
    exact .timed time (ih body (by simp) hg)
  · exact denotes_atom (hk ▸ hhead) ha

theorem denotes_of_readQuantified {w : Excerpt} {args : List Tree} {word : String}
    {quantifier : List Entity → Formula → Formula} {f : Formula}
    (hquantifier : word = "forall" ∧ quantifier = .forAll ∨ word = "exists" ∧ quantifier = .thereIs)
    (ih : ∀ t ∈ args, ∀ {scope g}, symbols.readFormula "a formula" scope mode t = .ok g →
      symbols.Denotes scope mode t.shape g)
    (h : symbols.readQuantified w quantifier scope mode args = .ok f) :
    symbols.Denotes scope mode (.list (.word word :: args.map Tree.shape)) f := by
  obtain ⟨e, trees, body, binders, rfl, hbinders, -, hbody⟩ := readQuantified_eq_ok.1 h
  simp only [List.map_cons, List.map_nil, Tree.shape_list]
  rcases hbody with ⟨rfl, hf⟩ | ⟨hne, inner, g, hinner, hg, rfl⟩
  · exact .unbound (hquantifier.imp And.left And.left) hbinders (ih body (by simp) hf)
  · rcases hquantifier with ⟨rfl, rfl⟩ | ⟨rfl, rfl⟩
    · exact .forAll hbinders hne hinner (ih body (by simp) hg)
    · exact .thereIs hbinders hne hinner (ih body (by simp) hg)

theorem denotes_of_readFormula {t : Tree} {what : String} {f : Formula}
    (h : symbols.readFormula what scope mode t = .ok f) : symbols.Denotes scope mode t.shape f := by
  induction t using Tree.induct generalizing what scope mode f with
  | word e => simp [readFormula] at h
  | broken e err => simp [readFormula] at h
  | list e items ih =>
    rcases items with _ | ⟨head, args⟩
    · obtain rfl : .trivial = f := by simpa [readFormula] using h
      simpa using Denotes.trivial
    obtain ⟨w, rfl⟩ := exists_word_of_readFormula h
    have ihargs := (List.forall_mem_cons.1 ih).2
    rw [Tree.shape_list, List.map_cons, Tree.shape_word]
    generalize hk : Keyword.ofText w.text = k
    have hw : k ≠ .predicate → w.text = k.text := fun hne => (Keyword.text_ofText hk hne).symm
    -- each keyword has its own lemma on what is read behind it
    cases k with
    | and =>
      obtain ⟨fs, hfs, rfl⟩ := (readFormula_and hk).1 h
      obtain ⟨hlen, hall⟩ := Tree.forall₂_shapes.1 (forall₂_imp_of_mem hfs fun t ht f => ihargs t ht)
      exact hw (by simp) ▸ .and hlen hall
    | or =>
      obtain ⟨fs, hfs, rfl⟩ := (readFormula_or hk).1 h
      obtain ⟨hlen, hall⟩ := Tree.forall₂_shapes.1 (forall₂_imp_of_mem hfs fun t ht f => ihargs t ht)
      exact hw (by simp) ▸ .or hlen hall
    | forAll =>
      rw [hw (by simp)]
      exact denotes_of_readQuantified (Or.inl ⟨rfl, rfl⟩) (fun t ht _ _ => ihargs t ht)
        (readFormula_forAll hk ▸ h)
    | thereIs =>
      rw [hw (by simp)]
      exact denotes_of_readQuantified (Or.inr ⟨rfl, rfl⟩) (fun t ht _ _ => ihargs t ht)
        (readFormula_thereIs hk ▸ h)
    | not =>
      rw [hw (by simp)]
      obtain ⟨inner, g, rfl, hg, ⟨rfl, rfl⟩ | ⟨rfl, rfl⟩⟩ := (readFormula_not hk).1 h
      · exact .not (ihargs inner (by simp) hg)
      · exact .delete (ihargs inner (by simp) hg)
    | imply =>
      rw [hw (by simp)]
      obtain ⟨rfl, left, right, l, r, rfl, hl, hr, rfl⟩ := (readFormula_imply hk).1 h
      exact .imply (ihargs left (by simp) hl) (ihargs right (by simp) hr)
    | when =>
      rw [hw (by simp)]
      obtain ⟨rfl, left, right, c, g, rfl, hc, hg, rfl⟩ := (readFormula_when hk).1 h
      exact .when (ihargs left (by simp) hc) (ihargs right (by simp) hg)
    | probabilistic =>
      rw [hw (by simp)]
      obtain ⟨rfl, ps, os, rfl, hall, htotal, rfl⟩ := (readFormula_probabilistic hk).1 h
      have hdenotes : List.Forall₂ (fun a o => (Number.ofChars? a.1.toList = some o.1 ∧
          o.1.IsProbability) ∧ symbols.Denotes scope .effect a.2 o.2)
          (ps.map fun p => (p.1.text, p.2.shape)) os := by
        rw [List.forall₂_map_left_iff]
        exact forall₂_imp_of_mem hall fun p hp o ho =>
          ⟨ho.1, ihargs p.2 (Tree.mem_pairs hp) ho.2⟩
      obtain ⟨hlen, hall⟩ := List.forall₂_iff_zip.1 hdenotes
      rw [Tree.map_shape_pairs]
      exact .probabilistic hlen (fun a o hao => (hall hao).1) (fun a o hao => (hall hao).2) htotal
    | timePoint =>
      exact denotes_of_readTimed hk rfl (hw (by simp)) (fun t ht _ => ihargs t ht)
        (readFormula_timed .atStart hk ▸ h)
    | timeSpan =>
      exact denotes_of_readTimed hk rfl (hw (by simp)) (fun t ht _ => ihargs t ht)
        (readFormula_timed .overAll hk ▸ h)
    | different =>
      cases hbuiltin : symbols.predicate? w.text with
      | none =>
        rw [readFormula_different hk hbuiltin] at h
        obtain ⟨a, b, hargs, ha, hb, rfl⟩ := Scope.readDifferent_eq_ok.1 h
        rw [hw (by simp)] at hbuiltin ⊢
        exact hargs ▸ .different hbuiltin ha hb
      | some signature =>
        obtain ⟨a, ha, rfl⟩ := (readFormula_declared hk hbuiltin).1 h
        exact denotes_atom (by rw [hk]; rfl) ha
    | relation r =>
      rw [hw (by simp)]
      rw [readFormula_relation hk] at h
      rcases readRelation_eq_ok.1 h with ⟨a, s, x, hargs, ha, hx, rfl⟩ | ⟨rfl, a, b, hargs, ha, hb, rfl⟩
      · exact hargs ▸ .comparison ha hx
      · exact hargs ▸ .equal ha hb
    | update u =>
      rw [hw (by simp)]
      obtain ⟨rfl, hupdate⟩ := (readFormula_update hk).1 h
      obtain ⟨a, s, x, hargs, ha, hx, rfl⟩ := readUpdate_eq_ok.1 hupdate
      exact hargs ▸ .assign ha hx
    | predicate =>
      obtain ⟨a, ha, rfl⟩ := (readFormula_predicate hk).1 h
      exact denotes_atom (by rw [hk]; rfl) ha

theorem Denotes.eq_list {s : Shape} {f : Formula} (h : symbols.Denotes scope mode s f) :
    ∃ ss, s = .list ss := by
  cases h <;> exact ⟨_, rfl⟩

theorem Denotes.isList {t : Tree} {f : Formula} (h : symbols.Denotes scope mode t.shape f) :
    t.isList = true := by
  obtain ⟨ss, hss⟩ := h.eq_list
  rw [Tree.isList_iff_shape, hss]
  simp

theorem readFormula_of_keyword (k : Keyword) (hk : k ≠ .predicate) {ss : List Shape} {f : Formula}
    (h : ∀ {what e w args}, Keyword.ofText w.text = k → args.map Tree.shape = ss →
      symbols.readFormula what scope mode (.list e (.word w :: args)) = .ok f)
    (what : String) (t : Tree) (ht : t.shape = .list (.word k.text :: ss)) :
    symbols.readFormula what scope mode t = .ok f := by
  obtain ⟨e, w, args, rfl, hw, hargs⟩ := Tree.eq_headed_of_shape ht
  exact h (hw ▸ Keyword.ofText_text hk) hargs

theorem readFormula_atom {what : String} {e w : Excerpt} {args : List Tree} {a : Application}
    (hhead : (Keyword.ofText a.head).headsAtom = true) (hw : w.text = a.head)
    (hargs : args.map Tree.shape = a.arguments.map fun e => .word e.name)
    (hchecked : a.Checked symbols.predicates symbols.types scope) :
    symbols.readFormula what scope mode (.list e (.word w :: args)) = .ok (.atom a) := by
  have hatom : symbols.readAtom scope w args = .ok a :=
    readAtom_eq_ok.2 ⟨hw, hargs, hchecked⟩
  have hword : ∀ t ∈ args, t.isList = false := by
    intro t ht
    obtain ⟨d, -, hd⟩ := List.mem_map.1 (hargs ▸ List.mem_map_of_mem ht)
    obtain ⟨v, rfl, -⟩ := Tree.eq_word_of_shape hd.symm
    rfl
  have htimed : ∀ kind, symbols.readTimed w kind scope mode args = .ok (.atom a) := fun kind =>
    readTimed_eq_ok.2 (Or.inr ⟨fun _ _ body h _ => hword body (by simp [h]), a, hatom, rfl⟩)
  rw [← hw] at hhead
  cases hk : Keyword.ofText w.text with
  | predicate => exact (readFormula_predicate hk).2 ⟨a, hatom, rfl⟩
  | different =>
    obtain ⟨signature, hs, -⟩ := hchecked.fits
    exact (readFormula_declared hk (hw ▸ hs)).2 ⟨a, hatom, rfl⟩
  | timePoint => exact (readFormula_timed .atStart hk).trans (htimed _)
  | timeSpan => exact (readFormula_timed .overAll hk).trans (htimed _)
  | _ => simp [hk, Keyword.headsAtom] at hhead

theorem readFormulas_of_zip {args : List Tree} {fs : List Formula}
    (hlen : (args.map Tree.shape).length = fs.length)
    (ih : ∀ s f, (s, f) ∈ (args.map Tree.shape).zip fs → ∀ (what : String) (t : Tree), t.shape = s →
      symbols.readFormula what scope mode t = .ok f) :
    List.Forall₂ (fun t f => symbols.readFormula "a formula" scope mode t = .ok f) args fs :=
  (Tree.forall₂_shapes.2 ⟨hlen, ih⟩).imp fun t _ ht => ht _ t rfl

theorem eq_quantified_of_shapes {args : List Tree} {ss : List Shape} {s : Shape}
    (h : args.map Tree.shape = [.list ss, s]) :
    ∃ e trees body, args = [.list e trees, body] ∧ trees.map Tree.shape = ss ∧ body.shape = s := by
  obtain ⟨list, body, rfl, hlist, hbody⟩ := Tree.eq_pair_of_shapes h
  obtain ⟨e, trees, rfl, htrees⟩ := Tree.eq_list_of_shape hlist
  exact ⟨e, trees, body, rfl, htrees, hbody⟩

theorem readFormula_of_denotes {s : Shape} {f : Formula} (h : symbols.Denotes scope mode s f) :
    ∀ (what : String) (t : Tree), t.shape = s → symbols.readFormula what scope mode t = .ok f := by
  induction h with
  | trivial =>
    intro what t ht
    obtain ⟨e, items, rfl, hitems⟩ := Tree.eq_list_of_shape ht
    obtain rfl := List.map_eq_nil_iff.1 hitems
    rw [readFormula]
  | atom hhead hchecked =>
    intro what t ht
    obtain ⟨e, w, args, rfl, hw, hargs⟩ := Tree.eq_headed_of_shape ht
    exact readFormula_atom hhead hw hargs hchecked
  | not _ ih =>
    refine readFormula_of_keyword .not (by simp) fun hk hargs => ?_
    obtain ⟨inner, rfl, hinner⟩ := Tree.eq_singleton_of_shapes hargs
    exact (readFormula_not hk).2 ⟨inner, _, rfl, ih _ inner hinner, Or.inl ⟨rfl, rfl⟩⟩
  | delete _ ih =>
    refine readFormula_of_keyword .not (by simp) fun hk hargs => ?_
    obtain ⟨inner, rfl, hinner⟩ := Tree.eq_singleton_of_shapes hargs
    exact (readFormula_not hk).2 ⟨inner, _, rfl, ih _ inner hinner, Or.inr ⟨rfl, rfl⟩⟩
  | and hlen _ ih =>
    refine readFormula_of_keyword .and (by simp) fun hk hargs => ?_
    subst hargs
    exact (readFormula_and hk).2 ⟨_, readFormulas_of_zip hlen ih, rfl⟩
  | or hlen _ ih =>
    refine readFormula_of_keyword .or (by simp) fun hk hargs => ?_
    subst hargs
    exact (readFormula_or hk).2 ⟨_, readFormulas_of_zip hlen ih, rfl⟩
  | imply _ _ ihleft ihright =>
    refine readFormula_of_keyword .imply (by simp) fun hk hargs => ?_
    obtain ⟨left, right, rfl, hleft, hright⟩ := Tree.eq_pair_of_shapes hargs
    exact (readFormula_imply hk).2
      ⟨rfl, left, right, _, _, rfl, ihleft _ left hleft, ihright _ right hright, rfl⟩
  | forAll hbinders hne hbind hbody ih =>
    refine readFormula_of_keyword .forAll (by simp) fun hk hargs => ?_
    obtain ⟨e, trees, body, rfl, rfl, rfl⟩ := eq_quantified_of_shapes hargs
    rw [readFormula_forAll hk]
    exact readQuantified_eq_ok.2 ⟨e, trees, body, _, rfl, hbinders, hbody.isList,
      Or.inr ⟨hne, _, _, hbind, ih _ body rfl, rfl⟩⟩
  | thereIs hbinders hne hbind hbody ih =>
    refine readFormula_of_keyword .thereIs (by simp) fun hk hargs => ?_
    obtain ⟨e, trees, body, rfl, rfl, rfl⟩ := eq_quantified_of_shapes hargs
    rw [readFormula_thereIs hk]
    exact readQuantified_eq_ok.2 ⟨e, trees, body, _, rfl, hbinders, hbody.isList,
      Or.inr ⟨hne, _, _, hbind, ih _ body rfl, rfl⟩⟩
  | @unbound scope mode _ ss s f hquantifier hbinders hbody ih =>
    -- either keyword: without variables the quantifier is not there in the formula
    have hread : ∀ w args q, args.map Tree.shape = [.list ss, s] →
        symbols.readQuantified w q scope mode args = .ok f := fun w args q hargs => by
      obtain ⟨e, trees, body, rfl, rfl, rfl⟩ := eq_quantified_of_shapes hargs
      exact readQuantified_eq_ok.2
        ⟨e, trees, body, [], rfl, hbinders, hbody.isList, Or.inl ⟨rfl, ih _ body rfl⟩⟩
    rcases hquantifier with rfl | rfl
    · exact readFormula_of_keyword .forAll (by simp) fun hk hargs =>
        (readFormula_forAll hk).trans (hread _ _ _ hargs)
    · exact readFormula_of_keyword .thereIs (by simp) fun hk hargs =>
        (readFormula_thereIs hk).trans (hread _ _ _ hargs)
  | when _ _ ihcondition iheffect =>
    refine readFormula_of_keyword .when (by simp) fun hk hargs => ?_
    obtain ⟨left, right, rfl, hleft, hright⟩ := Tree.eq_pair_of_shapes hargs
    exact (readFormula_when hk).2
      ⟨rfl, left, right, _, _, rfl, ihcondition _ left hleft, iheffect _ right hright, rfl⟩
  | @assign _ u a s x ha hx =>
    refine readFormula_of_keyword (.update u) (by simp) fun hk hargs => ?_
    exact (readFormula_update hk).2 ⟨rfl, readUpdate_eq_ok.2 ⟨a, s, x, hargs, ha, hx, rfl⟩⟩
  | @probabilistic scope args outcomes hlen hprobability _ htotal ih =>
    refine readFormula_of_keyword .probabilistic (by simp) fun hk hargs => ?_
    obtain ⟨ps, rfl, rfl⟩ := Tree.eq_pairs_of_shapes hargs
    have hpairs : List.Forall₂ (fun a o => (Number.ofChars? a.1.toList = some o.1 ∧
        o.1.IsProbability) ∧ ∀ (what : String) (t : Tree), t.shape = a.2 →
          symbols.readFormula what scope .effect t = .ok o.2)
        (ps.map fun p => (p.1.text, p.2.shape)) outcomes :=
      List.forall₂_iff_zip.2 ⟨hlen, fun hao => ⟨hprobability _ _ hao, ih _ _ hao⟩⟩
    rw [List.forall₂_map_left_iff] at hpairs
    exact (readFormula_probabilistic hk).2
      ⟨rfl, ps, _, rfl, hpairs.imp fun p o h => ⟨h.1, h.2 _ p.2 rfl⟩, htotal, rfl⟩
  | @comparison _ _ r a s x ha hx =>
    refine readFormula_of_keyword (.relation r) (by simp) fun hk hargs => ?_
    rw [readFormula_relation hk]
    exact readRelation_eq_ok.2 (Or.inl ⟨a, s, x, hargs, ha, hx, rfl⟩)
  | @equal _ _ a b ha hb =>
    refine readFormula_of_keyword (.relation .equal) (by simp) fun hk hargs => ?_
    rw [readFormula_relation hk]
    exact readRelation_eq_ok.2 (Or.inr ⟨rfl, a, b, hargs, ha, hb, rfl⟩)
  | @different _ _ a b hbuiltin ha hb =>
    refine readFormula_of_keyword .different (by simp) fun {_ _ w _} hk hargs => ?_
    have hw : w.text = "different" := (Keyword.text_ofText hk (by simp)).symm
    rw [readFormula_different hk (hw ▸ hbuiltin)]
    exact Scope.readDifferent_eq_ok.2 ⟨a, b, hargs, ha, hb, rfl⟩
  | timed time hbody ih =>
    refine readFormula_of_keyword time.keyword (by cases time <;> simp [Time.keyword]) fun hk hargs => ?_
    obtain ⟨qualifier, body, rfl, hqualifier, rfl⟩ := Tree.eq_pair_of_shapes hargs
    rw [readFormula_timed time hk]
    exact readTimed_eq_ok.2 (Or.inl ⟨time, qualifier, body, _, rfl,
      Time.ofWords?_eq_some.2 ⟨rfl, hqualifier⟩, hbody.isList, ih _ body rfl, rfl⟩)

/-- A tree is read as a formula exactly when its shape denotes it. -/
theorem readFormula_eq_ok {what : String} {t : Tree} {f : Formula} :
    symbols.readFormula what scope mode t = .ok f ↔ symbols.Denotes scope mode t.shape f :=
  ⟨denotes_of_readFormula, fun h => readFormula_of_denotes h what t rfl⟩

end Symbols

end Pddl
