import Pddl.Proofs.Operator.Reader

namespace Pddl

namespace OperatorFields

structure Alike (f g : OperatorFields) : Prop where
  parameters : f.parameters.map Tree.shape = g.parameters.map Tree.shape
  condition : f.condition.map Tree.shape = g.condition.map Tree.shape
  duration : f.duration.map Tree.shape = g.duration.map Tree.shape
  effect : f.effect.map Tree.shape = g.effect.map Tree.shape

variable {f g next : OperatorFields} {durative : Bool} {operator operator' : Excerpt}

theorem alike_refl (f : OperatorFields) : f.Alike f := ⟨rfl, rfl, rfl, rfl⟩

theorem Alike.of_stores (h : f.Alike g) {name : String} {value value' : Tree}
    (hvalue : value.shape = value'.shape) (hstores : f.Stores value durative name next) :
    ∃ next', g.Stores value' durative name next' ∧ next.Alike next' := by
  cases hstores with
  | parameters => exact ⟨_, .parameters, { h with parameters := by simpa using hvalue }⟩
  | precondition => exact ⟨_, .precondition, { h with condition := by simpa using hvalue }⟩
  | condition => exact ⟨_, .condition, { h with condition := by simpa using hvalue }⟩
  | duration => exact ⟨_, .duration, { h with duration := by simpa using hvalue }⟩
  | effect => exact ⟨_, .effect, { h with effect := by simpa using hvalue }⟩

theorem Alike.set (h : f.Alike g) {field field' : Excerpt} {value value' : Tree}
    (hfield : field.text = field'.text) (hvalue : value.shape = value'.shape)
    (hset : f.set durative operator field value = .ok next) :
    ∃ next', g.set durative operator' field' value' = .ok next' ∧ next.Alike next' := by
  obtain ⟨hlist, hstores⟩ := set_eq_ok.1 hset
  obtain ⟨next', hstores', halike⟩ := h.of_stores hvalue (hfield ▸ hstores)
  exact ⟨next', set_eq_ok.2 ⟨Tree.isList_congr hvalue ▸ hlist, hstores'⟩, halike⟩

theorem Alike.setAll {ts us : List Tree} (h : f.Alike g)
    (hts : ts.map Tree.shape = us.map Tree.shape)
    (hset : f.setAll durative operator ts = .ok next) :
    ∃ next', g.setAll durative operator' us = .ok next' ∧ next.Alike next' := by
  induction ts using List.twoStepInduction generalizing f g us with
  | nil =>
    obtain rfl := List.map_eq_nil_iff.1 hts.symm
    obtain rfl : f = next := by simpa [OperatorFields.setAll] using hset
    exact ⟨g, rfl, h⟩
  | singleton t => simp [OperatorFields.setAll, bind_eq_ok] at hset
  | cons_cons field value ts ih _ =>
    obtain ⟨t, _, rfl, ht, hrest⟩ := List.map_eq_cons_iff.1 hts.symm
    obtain ⟨u, us, rfl, hu, hus⟩ := List.map_eq_cons_iff.1 hrest
    simp only [OperatorFields.setAll, bind_eq_ok, Tree.expectWord_eq_ok] at hset ⊢
    obtain ⟨word, rfl, middle, hmiddle, hset⟩ := hset
    obtain ⟨word', rfl, hword⟩ := Tree.eq_word_of_shape ht
    obtain ⟨middle', hmiddle', halike⟩ := h.set hword.symm hu.symm hmiddle
    obtain ⟨next', hnext', hnext⟩ := ih halike hus.symm hset
    exact ⟨next', ⟨word', rfl, middle', hmiddle', hnext'⟩, hnext⟩

end OperatorFields

namespace Symbols

variable {symbols : Symbols} {scope : Scope}

theorem readParameters_congr {list list' : Option Tree} {es : List Entity}
    (hshape : list.map Tree.shape = list'.map Tree.shape)
    (h : symbols.readParameters list = .ok es) : symbols.readParameters list' = .ok es := by
  refine of_map_eq_map (P := fun l => symbols.readParameters l = .ok es) hshape h
    fun t u htu ht => ?_
  simp only [readParameters, bind_eq_ok, Tree.expectItems_eq_ok,
    Types.declaredEntities_eq_ok] at ht ⊢
  obtain ⟨items, ⟨e, rfl⟩, hes⟩ := ht
  rw [Tree.shape_list] at htu
  obtain ⟨e', items', rfl, hitems⟩ := Tree.eq_list_of_shape htu.symm
  exact ⟨items', ⟨e', rfl⟩, hitems ▸ hes⟩

theorem readOptional_congr {mode : Mode} {t t' : Option Tree} {f : Formula}
    (hshape : t.map Tree.shape = t'.map Tree.shape)
    (h : symbols.readOptional scope mode t = .ok f) :
    symbols.readOptional scope mode t' = .ok f := by
  refine of_map_eq_map (P := fun t => symbols.readOptional scope mode t = .ok f) hshape h
    fun t u htu ht => ?_
  rw [readOptional, readFormula_eq_ok] at ht ⊢
  exact htu ▸ ht

theorem Stores.of_alike {f g : OperatorFields} {durative : Bool} {o : Operator}
    (h : symbols.Stores f durative o scope) (halike : f.Alike g) :
    symbols.Stores g durative o scope where
  parameters := readParameters_congr halike.parameters h.parameters
  bind := h.bind
  precondition := readOptional_congr halike.condition h.precondition
  effect := readOptional_congr halike.effect h.effect
  durative := h.durative
  duration d hd := by
    obtain ⟨t, ht, hread⟩ := h.duration d hd
    rw [Option.mem_def] at ht
    obtain ⟨u, hu, hshape⟩ := Option.map_eq_some_iff.1 (ht ▸ halike.duration).symm
    rw [readDuration_eq_ok, ← hshape, ← readDuration_eq_ok] at hread
    exact ⟨u, hu, hread⟩

/-- The words of an operator and their nesting say what the operator is. -/
theorem readOperator_congr {t u : Tree} {o : Operator} (hshape : t.shape = u.shape)
    (h : symbols.readOperator t = .ok o) : symbols.readOperator u = .ok o := by
  obtain ⟨e, keyword, name, fields, stored, scope, rfl, hname, hset, hstores⟩ :=
    readOperator_eq_ok.1 h
  rw [Tree.shape_list] at hshape
  obtain ⟨e', items', rfl, hitems⟩ := Tree.eq_list_of_shape hshape.symm
  obtain ⟨keyword', _, rfl, hkeyword, hrest⟩ := List.map_eq_cons_iff.1 hitems
  obtain ⟨_, fields', rfl, hword, hfields⟩ := List.map_eq_cons_iff.1 hrest
  obtain ⟨name', rfl, htext⟩ := Tree.eq_word_of_shape hword
  rw [← Tree.isWord_congr hkeyword] at hset hstores
  obtain ⟨stored', hset', halike⟩ := (OperatorFields.alike_refl .empty).setAll hfields.symm hset
  exact readOperator_eq_ok.2 ⟨e', keyword', name', fields', stored', scope, rfl, htext.trans hname,
    hset', hstores.of_alike halike⟩

end Symbols

end Pddl
