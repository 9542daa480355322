import Pddl.Proofs.Bindings
import Pddl.Proofs.Formula.Numbering
import Pddl.Proofs.Formula.RoundTrip
import Pddl.Proofs.Formula.Soundness

namespace Pddl

open Text

namespace Formula

/-- What fresh copies of variables are. -/
structure AreCopies (copies : List (Entity × Entity)) (taken : List String) (vs : List Entity) :
    Prop where
  originals : copies.map Prod.fst = vs
  named : ∀ c ∈ copies, ∃ n, c.2.name = numbered c.1.name n
  type : ∀ c ∈ copies, c.2.type = c.1.type
  free : ∀ c ∈ copies, c.2.name ∉ taken
  nodup : (copies.map fun c => c.2.name).Nodup

theorem areCopies_freshCopies (taken : List String) (vs : List Entity) :
    AreCopies (freshCopies taken vs).1 taken vs := by
  induction vs generalizing taken with
  | nil => exact ⟨rfl, by simp [freshCopies], by simp [freshCopies], by simp [freshCopies], by simp [freshCopies]⟩
  | cons v vs ih =>
    obtain ⟨horiginals, hnamed, htype, hfree, hnodup⟩ := ih (freshName taken v.name :: taken)
    obtain ⟨⟨n, hnumbered, -⟩, hnew⟩ := isFresh_freshName taken v.name
    simp only [List.mem_cons, not_or] at hfree
    simp only [freshCopies]
    refine ⟨by rw [List.map_cons, horiginals], ?_, ?_, ?_, ?_⟩
    · exact List.forall_mem_cons.2 ⟨⟨n + 1, hnumbered⟩, hnamed⟩
    · exact List.forall_mem_cons.2 ⟨rfl, htype⟩
    · exact List.forall_mem_cons.2 ⟨hnew, fun c hc => (hfree c hc).2⟩
    · refine List.nodup_cons.2 ⟨?_, hnodup⟩
      simp only [List.mem_map, not_exists, not_and]
      exact fun c hc => (hfree c hc).1

theorem subset_freshCopies (taken : List String) (vs : List Entity) :
    taken ⊆ (freshCopies taken vs).2 := by
  induction vs generalizing taken with
  | nil => exact fun _ h => h
  | cons v vs ih =>
    simp only [freshCopies]
    exact fun name hname => ih _ (List.mem_cons_of_mem _ hname)

end Formula

namespace Symbols

variable {symbols : Symbols} {scope : Scope} {mode : Mode} {s : Shape} {f : Formula}

theorem Denotes.of_atom {a : Application} (h : symbols.Denotes scope mode s f) (hf : f = .atom a)
    (hplain : s.Plain) :
    (Keyword.ofText a.head).headsAtom = true ∧ a.Checked symbols.predicates symbols.types scope ∧
      a.shape.Plain := by
  induction h with
  | atom hhead hchecked =>
    obtain rfl := Formula.atom.inj hf
    exact ⟨hhead, hchecked, hplain⟩
  | unbound _ _ _ ih =>
    simp only [Shape.plain_list, List.forall_mem_cons] at hplain
    exact ih hf hplain.2.2.1
  | _ => simp [Formula.trivial] at hf

theorem Denotes.of_not {g : Formula} (h : symbols.Denotes scope mode s f) (hf : f = .not g)
    (hplain : s.Plain) : ∃ u : Shape, u.Plain ∧ symbols.Denotes scope .condition u g := by
  induction h with
  | not hbody =>
    obtain rfl := Formula.not.inj hf
    simp only [Shape.plain_list, List.forall_mem_cons] at hplain
    exact ⟨_, hplain.2.1, hbody⟩
  | unbound _ _ _ ih =>
    simp only [Shape.plain_list, List.forall_mem_cons] at hplain
    exact ih hf hplain.2.2.1
  | _ => simp [Formula.trivial] at hf

theorem Denotes.of_timed {time : Time} {g : Formula} (h : symbols.Denotes scope mode s f)
    (hf : f = .timed time g) (hplain : s.Plain) :
    ∃ u : Shape, u.Plain ∧ symbols.Denotes scope mode u g := by
  induction h with
  | timed time hbody =>
    obtain ⟨rfl, rfl⟩ := Formula.timed.inj hf
    simp only [Shape.plain_list, List.forall_mem_cons] at hplain
    exact ⟨_, hplain.2.2.1, hbody⟩
  | unbound _ _ _ ih =>
    simp only [Shape.plain_list, List.forall_mem_cons] at hplain
    exact ih hf hplain.2.2.1
  | _ => simp [Formula.trivial] at hf

theorem Denotes.of_and {fs : List Formula} (h : symbols.Denotes scope mode s f) (hf : f = .and fs)
    (hplain : s.Plain) : ∀ g ∈ fs, ∃ u : Shape, u.Plain ∧ symbols.Denotes scope mode u g := by
  induction h with
  | trivial =>
    obtain rfl := Formula.and.inj hf
    simp
  | and hlen hterms =>
    obtain rfl := Formula.and.inj hf
    simp only [Shape.plain_list, List.forall_mem_cons] at hplain
    intro g hg
    obtain ⟨u, hu⟩ := exists_zip_of_mem hlen hg
    exact ⟨u, hplain.2 u (List.of_mem_zip hu).1, hterms u g hu⟩
  | unbound _ _ _ ih =>
    simp only [Shape.plain_list, List.forall_mem_cons] at hplain
    exact ih hf hplain.2.2.1
  | _ => simp at hf

theorem Denotes.of_conjuncts (h : symbols.Denotes scope mode s f) (hplain : s.Plain) :
    ∀ g ∈ f.conjuncts, ∃ u : Shape, u.Plain ∧ symbols.Denotes scope mode u g := by
  cases f with
  | and fs => exact h.of_and rfl hplain
  | _ =>
    intro g hg
    obtain rfl := List.mem_singleton.1 hg
    exact ⟨s, hplain, h⟩

/-- Whether the formula is read back from its text. -/
structure Restores (symbols : Symbols) (scope : Scope) (mode : Mode) (f : Formula) : Prop where
  denotes : symbols.Denotes scope mode f.shape f
  written : f.IsWritten

theorem Denotes.restores (h : symbols.Denotes scope mode s f) (hplain : s.Plain)
    (hseparate : symbols.types.Separate) {enclosing : List Entity}
    (hnumbers : ∀ n ∈ f.nodes enclosing, ∀ x ∈ n.numbers, x.ReadsBack) :
    symbols.Restores scope mode f :=
  ⟨h.shape hseparate hnumbers, h.isWritten hplain⟩

/-- Whether the formula is denoted by its own words, all of them plain. -/
structure Exact (symbols : Symbols) (scope : Scope) (mode : Mode) (f : Formula) : Prop where
  denotes : symbols.Denotes scope mode f.shape f
  plain : f.shape.Plain

namespace Exact

theorem restores (h : symbols.Exact scope mode f) : symbols.Restores scope mode f :=
  ⟨h.denotes, h.denotes.isWritten h.plain⟩

theorem timed (h : symbols.Exact scope mode f) (time : Time) :
    symbols.Exact scope mode (.timed time f) := by
  refine ⟨.timed time h.denotes, ?_⟩
  have hkeyword : PlainWord time.keyword.text := by cases time <;> decide
  have hqualifier : PlainWord time.qualifier := by cases time <;> decide
  simpa [Formula.shape, hkeyword, hqualifier] using h.plain

theorem not (h : symbols.Exact scope .condition f) : symbols.Exact scope .condition (.not f) := by
  have hkeyword : PlainWord "not" := by decide
  exact ⟨.not h.denotes, by simpa [Formula.shape, hkeyword] using h.plain⟩

theorem or {fs : List Formula} (h : ∀ f ∈ fs, symbols.Exact scope mode f) :
    symbols.Exact scope mode (.or fs) := by
  have hkeyword : PlainWord "or" := by decide
  constructor
  · rw [Formula.shape, Formula.shapes_eq_map]
    exact .or (List.length_map _) (forall_zip_map fun f hf => (h f hf).denotes)
  · rw [Formula.shape, Formula.shapes_eq_map, Shape.plain_list, List.forall_mem_cons,
      List.forall_mem_map]
    exact ⟨(Shape.plain_word _).2 hkeyword, fun f hf => (h f hf).plain⟩

theorem atom {a : Application} (hhead : (Keyword.ofText a.head).headsAtom = true)
    (h : a.Checked symbols.predicates symbols.types scope) (hplain : a.shape.Plain) :
    symbols.Exact scope mode (.atom a) :=
  ⟨.atom hhead h, hplain⟩

theorem different {a b : Entity} (hbuiltin : symbols.predicate? "different" = none)
    (ha : scope.Sees a) (hb : scope.Sees b) (haplain : PlainWord a.name)
    (hbplain : PlainWord b.name) : symbols.Exact scope mode (.different a b) := by
  have hkeyword : PlainWord "different" := by decide
  exact ⟨.different hbuiltin ha hb, by simp [Formula.shape, hkeyword, haplain, hbplain]⟩

theorem forAll {v : Entity} (hseparate : symbols.types.Separate)
    (hv : symbols.types.Declarable .reject v) (hvplain : v.Plain)
    (hfresh : ∀ d ∈ scope, d.name ≠ v.name) (h : symbols.Exact (v :: scope) mode f) :
    symbols.Exact scope mode (.forAll [v] f) := by
  have hkeyword : PlainWord "forall" := by decide
  have hdeclares : symbols.types.Declares .reject ([v].flatMap Entity.shapes) [v] :=
    Types.declares_shapes (by simpa using hv) fun htyping => by
      simpa using hseparate.ne_implicitType htyping hv
  have hbind : scope.bind [v] = .ok (v :: scope) :=
    Scope.bind_eq_ok.2 ⟨rfl, by simp, by simpa using hfresh⟩
  refine ⟨.forAll hdeclares (List.cons_ne_nil _ _) hbind h.denotes, ?_⟩
  simpa [Formula.shape, hkeyword, h.plain] using hvplain.shapes

theorem forEach {binders : List Entity} (hseparate : symbols.types.Separate)
    (hdeclarable : ∀ v ∈ binders, symbols.types.Declarable .reject v)
    (hplain : ∀ v ∈ binders, v.Plain) (hfresh : ∀ v ∈ binders, ∀ d ∈ scope, d.name ≠ v.name)
    (hnodup : (binders.map Entity.name).Nodup)
    (h : symbols.Exact (binders.reverse ++ scope) mode f) :
    symbols.Exact scope mode (Formula.forEach binders f) := by
  induction binders generalizing scope with
  | nil => exact h
  | cons v vs ih =>
    rw [List.forall_mem_cons] at hdeclarable hplain hfresh
    rw [List.map_cons, List.nodup_cons] at hnodup
    rw [List.reverse_cons, List.append_assoc, List.singleton_append] at h
    refine forAll hseparate hdeclarable.1 hplain.1 hfresh.1
      (ih hdeclarable.2 hplain.2 (fun w hw => ?_) hnodup.2 h)
    rw [List.forall_mem_cons]
    exact ⟨fun heq => hnodup.1 (heq ▸ List.mem_map_of_mem hw), hfresh.2 w hw⟩

end Exact

end Symbols

theorem Scope.sees_of_mem {binders scope : Scope} {v : Entity} (hv : v ∈ binders)
    (hnodup : (binders.map Entity.name).Nodup) : Scope.Sees (binders ++ scope) v := by
  induction binders with
  | nil => simp at hv
  | cons w ws ih =>
    rw [List.map_cons, List.nodup_cons] at hnodup
    rw [Sees, find?, List.cons_append, List.find?_cons]
    rcases List.mem_cons.1 hv with rfl | hv
    · simp
    · have hne : ¬w.name = v.name := fun heq => hnodup.1 (heq ▸ List.mem_map_of_mem hv)
      rw [decide_eq_false hne]
      exact ih hv hnodup.2

theorem Scope.sees_outer {binders scope : Scope} {e : Entity} (h : scope.Sees e)
    (hne : ∀ v ∈ binders, v.name ≠ e.name) : Scope.Sees (binders ++ scope) e := by
  have hnone : List.find? (·.name = e.name) binders = none := by simpa using hne
  rw [Sees, find?, List.find?_append, hnone]
  exact h

theorem Scope.Sees.unique {scope : Scope} {d e : Entity} (hd : scope.Sees d) (he : scope.Sees e)
    (hname : d.name = e.name) : d = e := by
  rw [Sees, hname] at hd
  exact Option.some.inj (hd.symm.trans he)

/-- Whether every variable in the scope may be declared below other names. -/
structure Symbols.Copyable (symbols : Symbols) (scope : Scope) : Prop where
  separate : symbols.types.Separate
  declarable : ∀ e ∈ scope, e.isVariable = true → symbols.types.Declarable .reject e
  plain : ∀ e ∈ scope, e.Plain

/-- Whether the context knows the variables of the scope. -/
structure Formula.Context.Fits (c : Formula.Context) (scope : Scope) : Prop where
  seen : ∀ e ∈ c.seen, scope.Sees e ∧ e.isVariable = true
  taken : ∀ e ∈ scope, e.isVariable = true → e.name ∈ c.taken

namespace Formula

variable {symbols : Symbols} {scope : Scope} {c : Context} {copies : List (Entity × Entity)}
  {vs : List Entity}

def copying (copies : List (Entity × Entity)) : Bindings :=
  (copies.map fun (v, fresh) => (v.name, fresh)).reverse

theorem apply_copying_cases {e : Entity} (hunique : ∀ d ∈ copies, d.1.name = e.name → d.1 = e) :
    (∃ d ∈ copies, d.1 = e ∧ (copying copies).apply e = d.2) ∨
      (∀ d ∈ copies, d.1 ≠ e) ∧ (copying copies).apply e = e := by
  rw [Bindings.apply]
  cases hvalue : (copying copies).find? e.name with
  | none =>
    refine Or.inr ⟨?_, rfl⟩
    rintro d hd rfl
    rw [Bindings.find?, List.lookup_eq_none_iff] at hvalue
    have hentry := hvalue _ (List.mem_reverse.2 (List.mem_map_of_mem hd))
    simp at hentry
  | some w =>
    obtain ⟨d, hd, hpair⟩ := List.mem_map.1 (List.mem_reverse.1 (Bindings.mem_of_find? hvalue))
    obtain ⟨hname, rfl⟩ := Prod.mk.inj hpair
    exact Or.inl ⟨d, hd, hunique d hd hname, rfl⟩

/-- An expanded atom quantifies over copies of the unseen variables. Either a copy coincides with a
seen variable or the atom fails for the copies. -/
theorem exists_copies_expandAtom (seen : List Entity) (taken : List String) (a : Application) :
    ∃ copies, AreCopies copies taken
        (Sorted.ofList (a.variableArguments.filter (!seen.contains ·))) ∧
      (expandAtom seen taken a).1 = forEach (copies.map Prod.snd)
        (.or (((copies.map Prod.snd).flatMap fun v => seen.map fun earlier =>
          .not (.different earlier v)) ++ [.not (.atom (a.substitute (copying copies)))])) :=
  ⟨_, areCopies_freshCopies taken _, rfl⟩

theorem isVariable_numbered {v w : Entity} (hv : v.isVariable = true) {n : Nat}
    (hw : w.name = numbered v.name n) : w.isVariable = true := by
  simp only [Entity.isVariable, isVariableName, decide_eq_true_eq] at hv ⊢
  rw [hw, numbered, String.append_assoc, String.toList_append, List.head?_append, hv]
  rfl

theorem AreCopies.isVariable_copy {taken : List String} (h : AreCopies copies taken vs)
    (hvs : ∀ v ∈ vs, v.isVariable = true) {d : Entity × Entity} (hd : d ∈ copies) :
    d.2.isVariable = true := by
  obtain ⟨n, hn⟩ := h.named d hd
  exact isVariable_numbered (hvs d.1 (h.originals ▸ List.mem_map_of_mem hd)) hn

theorem ne_dash_of_isVariable {v : Entity} (hv : v.isVariable = true) : v.name ≠ "-" := by
  intro hdash
  rw [Entity.isVariable, hdash] at hv
  exact absurd hv (by decide)

namespace AreCopies

variable (h : AreCopies copies c.taken vs)
  (hvs : ∀ v ∈ vs, scope.Sees v ∧ v.isVariable = true)

include h hvs

theorem original {d : Entity × Entity} (hd : d ∈ copies) :
    scope.Sees d.1 ∧ d.1.isVariable = true :=
  hvs d.1 (h.originals ▸ List.mem_map_of_mem hd)

theorem isVariable {d : Entity × Entity} (hd : d ∈ copies) : d.2.isVariable = true :=
  h.isVariable_copy (fun v hv => (hvs v hv).2) hd

theorem declarable (hcopyable : symbols.Copyable scope) {d : Entity × Entity} (hd : d ∈ copies) :
    symbols.types.Declarable .reject d.2 := by
  obtain ⟨hsees, hvariable⟩ := h.original hvs hd
  have hdeclarable := hcopyable.declarable d.1 hsees.mem hvariable
  refine ⟨?_, ne_dash_of_isVariable (h.isVariable hvs hd), ?_⟩ <;> rw [h.type d hd]
  · exact hdeclarable.admits
  · exact hdeclarable.type_ne_dash

theorem plain (hcopyable : symbols.Copyable scope) {d : Entity × Entity} (hd : d ∈ copies) :
    d.2.Plain := by
  have hplain := hcopyable.plain d.1 (h.original hvs hd).1.mem
  obtain ⟨n, hn⟩ := h.named d hd
  refine ⟨?_, h.type d hd ▸ hplain.type⟩
  rw [hn, numbered]
  exact (hplain.name.append plainWord_dash).append (Number.plainWord_toString n)

/-- A copy has the name of nothing that is visible around it. -/
theorem fresh (hfits : c.Fits scope) {d : Entity × Entity} (hd : d ∈ copies) :
    ∀ e ∈ scope, e.name ≠ d.2.name := by
  intro e he hname
  have hvariable : e.isVariable = true := by
    rw [Entity.isVariable, hname]
    exact h.isVariable hvs hd
  exact h.free d hd (hname ▸ hfits.taken e he hvariable)

theorem sees (hfits : c.Fits scope) {e : Entity} (he : scope.Sees e) :
    Scope.Sees ((copies.map Prod.snd).reverse ++ scope) e := by
  refine Scope.sees_outer he fun v hv => ?_
  obtain ⟨d, hd, rfl⟩ := List.mem_map.1 (List.mem_reverse.1 hv)
  exact Ne.symm (h.fresh hvs hfits hd e he.mem)

omit hvs in
theorem sees_copy {d : Entity × Entity} (hd : d ∈ copies) :
    Scope.Sees ((copies.map Prod.snd).reverse ++ scope) d.2 := by
  refine Scope.sees_of_mem (List.mem_reverse.2 (List.mem_map_of_mem hd)) ?_
  rw [List.map_reverse, List.nodup_reverse, List.map_map]
  exact h.nodup

theorem apply_copying (hfits : c.Fits scope) {e : Entity} (he : scope.Sees e) :
    Scope.Sees ((copies.map Prod.snd).reverse ++ scope) ((copying copies).apply e) ∧
      ((copying copies).apply e).type = e.type ∧
        ((copying copies).apply e = e ∨ ∃ d ∈ copies, (copying copies).apply e = d.2) := by
  have hunique : ∀ d ∈ copies, d.1.name = e.name → d.1 = e :=
    fun d hd hname => (h.original hvs hd).1.unique he hname
  rcases apply_copying_cases hunique with ⟨d, hd, rfl, happly⟩ | ⟨-, happly⟩
  · rw [happly]
    exact ⟨h.sees_copy hd, h.type d hd, Or.inr ⟨d, hd, rfl⟩⟩
  · rw [happly]
    exact ⟨h.sees hvs hfits he, rfl, Or.inl rfl⟩

theorem checked_substitute (hfits : c.Fits scope) {a : Application}
    (ha : a.Checked symbols.predicates symbols.types scope) :
    (a.substitute (copying copies)).Checked symbols.predicates symbols.types
      ((copies.map Prod.snd).reverse ++ scope) := by
  obtain ⟨⟨s, hs, harity, htypes⟩, hsees⟩ := ha
  refine ⟨⟨s, hs, by simpa [Application.substitute] using harity, ?_⟩, ?_⟩
  · intro p hp
    rw [Application.substitute, List.zip_map_right] at hp
    obtain ⟨q, hq, rfl⟩ := List.mem_map.1 hp
    have htype := (h.apply_copying hvs hfits (hsees q.2 (List.of_mem_zip hq).2)).2.1
    exact htype ▸ htypes q hq
  · exact List.forall_mem_map.2 fun e he => (h.apply_copying hvs hfits (hsees e he)).1

theorem plain_substitute (hcopyable : symbols.Copyable scope) (hfits : c.Fits scope)
    {a : Application} (ha : a.Checked symbols.predicates symbols.types scope)
    (hplain : a.shape.Plain) : (a.substitute (copying copies)).shape.Plain := by
  simp only [Application.shape, Application.substitute, Shape.plain_list, List.forall_mem_cons,
    List.map_map, List.forall_mem_map] at hplain ⊢
  refine ⟨hplain.1, fun e he => (Shape.plain_word _).2 ?_⟩
  have hsees := ha.sees e he
  rcases (h.apply_copying hvs hfits hsees).2.2 with happly | ⟨d, hd, happly⟩ <;>
    rw [happly]
  · exact (hcopyable.plain e hsees.mem).name
  · exact (h.plain hvs hcopyable hd).name

end AreCopies

/-- An expanded atom is read back as it is. -/
theorem exact_expandAtom {a : Application} (hcopyable : symbols.Copyable scope)
    (hfits : c.Fits scope) (hbuiltin : symbols.predicate? "different" = none)
    (hhead : (Keyword.ofText a.head).headsAtom = true)
    (ha : a.Checked symbols.predicates symbols.types scope) (hplain : a.shape.Plain) :
    symbols.Exact scope .condition (expandAtom c.seen c.taken a).1 := by
  obtain ⟨copies, hcopies, hexpanded⟩ := exists_copies_expandAtom c.seen c.taken a
  have hunseen : ∀ v ∈ Sorted.ofList (a.variableArguments.filter (!c.seen.contains ·)),
      scope.Sees v ∧ v.isVariable = true := by
    intro v hv
    have hargument := (List.mem_filter.1 (Sorted.mem_of_mem_ofList hv)).1
    rw [Application.variableArguments, List.mem_filter] at hargument
    exact ⟨ha.sees v hargument.1, hargument.2⟩
  rw [hexpanded]
  -- what the quantifiers need of the copies comes first, then the guards, then the atom
  refine .forEach hcopyable.separate ?_ ?_ ?_ ?_ (.or ?_)
  · exact List.forall_mem_map.2 fun d hd => hcopies.declarable hunseen hcopyable hd
  · exact List.forall_mem_map.2 fun d hd => hcopies.plain hunseen hcopyable hd
  · exact List.forall_mem_map.2 fun d hd => hcopies.fresh hunseen hfits hd
  · rw [List.map_map]
    exact hcopies.nodup
  rw [List.forall_mem_append]
  constructor
  · intro guard hguard
    simp only [List.mem_flatMap, List.mem_map] at hguard
    obtain ⟨_, ⟨d, hd, rfl⟩, earlier, hearlier, rfl⟩ := hguard
    have hsees := (hfits.seen earlier hearlier).1
    exact .not (.different hbuiltin (hcopies.sees hunseen hfits hsees) (hcopies.sees_copy hd)
      (hcopyable.plain earlier hsees.mem).name (hcopies.plain hunseen hcopyable hd).name)
  · have hsubstitute : symbols.Exact ((copies.map Prod.snd).reverse ++ scope) .condition
        (.atom (a.substitute (copying copies))) := by
      refine .atom hhead (hcopies.checked_substitute hunseen hfits ha) ?_
      exact hcopies.plain_substitute hunseen hcopyable hfits ha hplain
    rw [List.forall_mem_singleton]
    exact .not hsubstitute

def expands : Formula → Bool
  | .not (.atom _) => true
  | .timed _ (.not (.atom _)) => true
  | _ => false

theorem negatesAtom_of_expands {f : Formula} (h : f.expands = true) : f.negatesAtom = true := by
  unfold expands at h
  split at h
  · rfl
  · rfl
  · simp at h

theorem expandTerm_of_not_expands {f : Formula} (h : f.expands = false) (c : Context) :
    (expandTerm c f).1 = f := by
  unfold expandTerm
  split <;> simp_all [expands]

theorem expands_forEach (binders : List Entity) (terms : List Formula) :
    (forEach binders (.or terms)).expands = false ∧
      ∀ time, (Formula.timed time (forEach binders (.or terms))).expands = false := by
  cases binders <;> exact ⟨rfl, fun _ => rfl⟩

/-- No expanded term is expanded again. -/
theorem expands_expandTerm (c : Context) (f : Formula) : (expandTerm c f).1.expands = false := by
  cases hf : f.expands with
  | false => rwa [expandTerm_of_not_expands hf]
  | true =>
    unfold expands at hf
    split at hf
    · exact (expands_forEach _ _).1
    · exact (expands_forEach _ _).2 _
    · simp at hf

theorem expands_of_mem_expandTerms {c : Context} {fs : List Formula} {g : Formula}
    (h : g ∈ expandTerms c fs) : g.expands = false := by
  induction fs generalizing c with
  | nil => simp [expandTerms] at h
  | cons f fs ih =>
    rw [expandTerms] at h
    rcases List.mem_cons.1 h with rfl | h
    · exact expands_expandTerm c f
    · exact ih h

theorem expandTerms_of_not_expands {fs : List Formula} (h : ∀ f ∈ fs, f.expands = false)
    (c : Context) : expandTerms c fs = fs := by
  induction fs generalizing c with
  | nil => rfl
  | cons f fs ih =>
    rw [List.forall_mem_cons] at h
    simp only [expandTerms, expandTerm_of_not_expands h.1, ih h.2]

theorem expandNegations_expandNegations (f : Formula) (parameters : List Entity) :
    (Formula.and (f.expandNegations parameters)).expandNegations parameters =
      f.expandNegations parameters :=
  expandTerms_of_not_expands (fun _ hg => expands_of_mem_expandTerms hg) _

def isNegation : Formula → Bool
  | .not _ => true
  | .timed _ (.not _) => true
  | _ => false

theorem seen_expandTerm (c : Context) (f : Formula) :
    (expandTerm c f).2.seen =
      if f.isNegation then c.seen else Sorted.insertAll f.freeVariables c.seen := by
  unfold expandTerm
  split <;> simp_all [isNegation]

theorem taken_subset_expandTerm (c : Context) (f : Formula) :
    c.taken ⊆ (expandTerm c f).2.taken := by
  unfold expandTerm
  split
  · exact subset_freshCopies _ _
  · exact subset_freshCopies _ _
  all_goals exact List.Subset.refl _

theorem fits_expandTerm {s : Shape} {f : Formula} (hfits : c.Fits scope)
    (h : symbols.Denotes scope .condition s f) : (expandTerm c f).2.Fits scope := by
  refine ⟨fun e he => ?_, fun e he hvariable =>
    taken_subset_expandTerm c f (hfits.taken e he hvariable)⟩
  rw [seen_expandTerm] at he
  split at he
  · exact hfits.seen e he
  · exact (Sorted.mem_of_mem_insertAll he).elim (h.sees_freeVariables e) (hfits.seen e)

theorem restores_expandTerm {s : Shape} {f : Formula} {enclosing : List Entity}
    (hcopyable : symbols.Copyable scope) (hfits : c.Fits scope)
    (hguard : f.expands = true → symbols.predicate? "different" = none)
    (h : symbols.Denotes scope .condition s f) (hplain : s.Plain)
    (hnumbers : ∀ n ∈ f.nodes enclosing, ∀ x ∈ n.numbers, x.ReadsBack) :
    symbols.Restores scope .condition (expandTerm c f).1 := by
  cases hexpands : f.expands with
  | false =>
    rw [expandTerm_of_not_expands hexpands]
    exact h.restores hplain hcopyable.separate hnumbers
  | true =>
    have hbuiltin := hguard hexpands
    unfold expands at hexpands
    split at hexpands
    · obtain ⟨u, hu, hatom⟩ := h.of_not rfl hplain
      obtain ⟨hhead, ha, haplain⟩ := hatom.of_atom rfl hu
      exact (exact_expandAtom hcopyable hfits hbuiltin hhead ha haplain).restores
    · obtain ⟨u, hu, hnot⟩ := h.of_timed rfl hplain
      obtain ⟨v, hv, hatom⟩ := hnot.of_not rfl hu
      obtain ⟨hhead, ha, haplain⟩ := hatom.of_atom rfl hv
      exact ((exact_expandAtom hcopyable hfits hbuiltin hhead ha haplain).timed _).restores
    · simp at hexpands

theorem restores_expandTerms {fs : List Formula} {enclosing : List Entity}
    (hcopyable : symbols.Copyable scope) (hfits : c.Fits scope)
    (hguard : ∀ f ∈ fs, f.expands = true → symbols.predicate? "different" = none)
    (h : ∀ f ∈ fs, ∃ s : Shape, s.Plain ∧ symbols.Denotes scope .condition s f)
    (hnumbers : ∀ f ∈ fs, ∀ n ∈ f.nodes enclosing, ∀ x ∈ n.numbers, x.ReadsBack) :
    ∀ g ∈ expandTerms c fs, symbols.Restores scope .condition g := by
  induction fs generalizing c with
  | nil => simp [expandTerms]
  | cons f fs ih =>
    rw [List.forall_mem_cons] at hguard h hnumbers
    obtain ⟨⟨s, hplain, hf⟩, hfs⟩ := h
    rw [expandTerms, List.forall_mem_cons]
    exact ⟨restores_expandTerm hcopyable hfits hguard.1 hf hplain hnumbers.1,
      ih (fits_expandTerm hfits hf) hguard.2 hfs hnumbers.2⟩

end Formula

end Pddl
