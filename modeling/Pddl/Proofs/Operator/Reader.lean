import Pddl.Operator.Reader
import Pddl.Proofs.Symbols

namespace Pddl

theorem Relation.ofText?_text (r : Relation) : ofText? r.text = some r := by
  cases r <;> rfl

theorem Relation.text_of_ofText? {s : String} {r : Relation} (h : ofText? s = some r) :
    r.text = s := by
  simpa using List.find?_some h

namespace OperatorFields

variable {f g : OperatorFields} {durative : Bool} {operator field : Excerpt} {value : Tree}

/-- What becomes of the value of a field; which fields there are depends on whether the operator takes
time. -/
inductive Stores (f : OperatorFields) (value : Tree) : Bool → String → OperatorFields → Prop
  | parameters {durative : Bool} :
      Stores f value durative ":parameters" { f with parameters := value }
  | precondition : Stores f value false ":precondition" { f with condition := value }
  | condition : Stores f value true ":condition" { f with condition := value }
  | duration : Stores f value true ":duration" { f with duration := value }
  | effect {durative : Bool} : Stores f value durative ":effect" { f with effect := value }

/-- The value of a field is a list, and it is stored by the name of the field. -/
theorem set_eq_ok :
    f.set durative operator field value = .ok g ↔
      value.isList = true ∧ f.Stores value durative field.text g := by
  constructor
  · intro h
    unfold set at h
    split at h
    case h_6 => simp at h
    all_goals
      rename_i hfield
      simp only [bind_eq_ok, Tree.expectList_eq_ok, pure_eq_ok] at h
      obtain ⟨_, ⟨hlist, rfl⟩, rfl⟩ := h
      rw [hfield]
    · exact ⟨hlist, .parameters⟩
    · exact ⟨hlist, .precondition⟩
    · exact ⟨hlist, .condition⟩
    · exact ⟨hlist, .duration⟩
    · exact ⟨hlist, .effect⟩
  · rintro ⟨hlist, h⟩
    have hvalue : ∀ what, value.expectList what = .ok value := fun what =>
      Tree.expectList_eq_ok.2 ⟨hlist, rfl⟩
    unfold set
    generalize field.text = name at h ⊢
    cases h <;> simp only [hvalue, ok_bind] <;> rfl

structure Plain (f : OperatorFields) : Prop where
  parameters : ∀ t ∈ f.parameters, t.shape.Plain
  condition : ∀ t ∈ f.condition, t.shape.Plain
  duration : ∀ t ∈ f.duration, t.shape.Plain
  effect : ∀ t ∈ f.effect, t.shape.Plain

theorem plain_empty : empty.Plain := ⟨by simp [empty], by simp [empty], by simp [empty], by simp [empty]⟩

theorem Plain.of_stores {name : String} (hf : f.Plain) (hvalue : value.shape.Plain)
    (h : f.Stores value durative name g) : g.Plain := by
  cases h with
  | parameters => exact { hf with parameters := by simpa using hvalue }
  | precondition | condition => exact { hf with condition := by simpa using hvalue }
  | duration => exact { hf with duration := by simpa using hvalue }
  | effect => exact { hf with effect := by simpa using hvalue }

theorem Plain.setAll {ts : List Tree} (hf : f.Plain) (hts : ∀ t ∈ ts, t.shape.Plain)
    (h : f.setAll durative operator ts = .ok g) : g.Plain := by
  induction ts using List.twoStepInduction generalizing f with
  | nil =>
    obtain rfl : f = g := by simpa [OperatorFields.setAll] using h
    exact hf
  | singleton t => simp [OperatorFields.setAll, bind_eq_ok] at h
  | cons_cons field value ts ih _ =>
    simp only [List.forall_mem_cons] at hts
    simp only [OperatorFields.setAll, bind_eq_ok, Tree.expectWord_eq_ok] at h
    obtain ⟨word, -, next, hnext, hrest⟩ := h
    exact ih (hf.of_stores hts.2.1 (set_eq_ok.1 hnext).2) hts.2.2 hrest

end OperatorFields

namespace Symbols

variable {symbols others : Symbols} {scope : Scope}

/-- Whether the operator is one that the symbols allow, with `scope` inside. -/
structure Describes (symbols : Symbols) (o : Operator) (scope : Scope) : Prop where
  name : PlainWord o.name
  parameters : ∃ ss, (∀ s ∈ ss, s.Plain) ∧ symbols.types.Declares .reject ss o.parameters
  bind : symbols.scope.bind o.parameters = .ok scope
  precondition : ∃ s : Shape, s.Plain ∧ symbols.Denotes scope .condition s o.precondition
  effect : ∃ s : Shape, s.Plain ∧ symbols.Denotes scope .effect s o.effect
  duration : ∀ d ∈ o.duration, ∃ s : Shape, s.Plain ∧ symbols.Values scope s d.value

theorem Describes.of_agrees {o : Operator} (h : symbols.Describes o scope)
    (hagrees : symbols.Agrees others) : others.Describes o scope := by
  obtain ⟨hname, ⟨ss, hss, hparameters⟩, hbind, ⟨s, hs, hcondition⟩, ⟨u, hu, heffect⟩, hduration⟩ := h
  refine ⟨hname, ⟨ss, hss, hagrees.types.declares hparameters⟩, ?_,
    ⟨s, hs, hcondition.of_agrees hagrees⟩, ⟨u, hu, heffect.of_agrees hagrees⟩, fun d hd => ?_⟩
  · rwa [Symbols.scope, ← hagrees.constants]
  · obtain ⟨v, hv, hvalue⟩ := hduration d hd
    exact ⟨v, hv, hvalue.of_agrees hagrees⟩

theorem declares_of_readParameters {list : Option Tree} {es : List Entity}
    (h : symbols.readParameters list = .ok es) (hplain : ∀ t ∈ list, t.shape.Plain) :
    ∃ ss, (∀ s ∈ ss, s.Plain) ∧ symbols.types.Declares .reject ss es := by
  cases list with
  | none =>
    obtain rfl : [] = es := by simpa [readParameters] using h
    exact ⟨[], by simp, [], .untyped [] (by simp), .nil⟩
  | some t =>
    simp only [readParameters, bind_eq_ok, Tree.expectItems_eq_ok,
      Types.declaredEntities_eq_ok] at h
    obtain ⟨trees, ⟨e, rfl⟩, hes⟩ := h
    have htrees := hplain _ rfl
    rw [Tree.shape_list, Shape.plain_list] at htrees
    exact ⟨_, htrees, hes⟩

theorem exists_denotes_of_readOptional {mode : Mode} {t : Option Tree} {f : Formula}
    (h : symbols.readOptional scope mode t = .ok f) :
    ∃ s : Shape, ((∀ u ∈ t, u.shape.Plain) → s.Plain) ∧ symbols.Denotes scope mode s f := by
  cases t with
  | none =>
    obtain rfl : .trivial = f := by simpa [readOptional] using h
    exact ⟨.list [], by simp, .trivial⟩
  | some t => exact ⟨t.shape, fun hplain => hplain t rfl, readFormula_eq_ok.1 h⟩

theorem denotes_of_readOptional {mode : Mode} {t : Option Tree} {f : Formula}
    (h : symbols.readOptional scope mode t = .ok f) (hplain : ∀ u ∈ t, u.shape.Plain) :
    ∃ s : Shape, s.Plain ∧ symbols.Denotes scope mode s f := by
  obtain ⟨s, hs, hdenotes⟩ := exists_denotes_of_readOptional h
  exact ⟨s, hs hplain, hdenotes⟩

theorem readDuration_eq_ok {t : Tree} {d : Duration} :
    symbols.readDuration scope t = .ok d ↔
      ∃ s, t.shape = .list [.word d.relation.text, .word "?duration", s] ∧
        symbols.Values scope s d.value := by
  simp only [readDuration, bind_eq_ok, Tree.expectItems_eq_ok]
  constructor
  · rintro ⟨items, ⟨e, rfl⟩, h⟩
    split at h
    · rename_i relation subject value
      simp only [bind_eq_ok, Tree.expectWord_eq_ok] at h
      obtain ⟨w, rfl, h⟩ := h
      split at h
      · simp at h
      · rename_i r hr
        split at h
        · simp at h
        · rename_i hsubject
          simp only [bind_eq_ok, pure_eq_ok, readNumeric_eq_ok] at h
          obtain ⟨x, hx, rfl⟩ := h
          rw [Bool.not_eq_true, Bool.not_eq_false', Tree.isWord_iff_shape] at hsubject
          exact ⟨_, by simp [hsubject, Relation.text_of_ofText? hr], hx⟩
    · simp at h
  · rintro ⟨s, ht, hs⟩
    obtain ⟨e, w, args, rfl, hw, hargs⟩ := Tree.eq_headed_of_shape ht
    obtain ⟨subject, value, rfl, hsubject, rfl⟩ := Tree.eq_pair_of_shapes hargs
    refine ⟨_, ⟨e, rfl⟩, ?_⟩
    simp only [bind_eq_ok, Tree.expectWord_eq_ok]
    refine ⟨w, rfl, ?_⟩
    simp only [hw, Relation.ofText?_text, (Tree.isWord_iff_shape subject _).2 hsubject,
      Bool.not_true, Bool.false_eq_true, if_false, bind_eq_ok, pure_eq_ok, readNumeric_eq_ok]
    exact ⟨d.value, hs, rfl⟩

structure Stores (symbols : Symbols) (f : OperatorFields) (durative : Bool) (o : Operator)
    (scope : Scope) : Prop where
  parameters : symbols.readParameters f.parameters = .ok o.parameters
  bind : symbols.scope.bind o.parameters = .ok scope
  precondition : symbols.readOptional scope .condition f.condition = .ok o.precondition
  effect : symbols.readOptional scope .effect f.effect = .ok o.effect
  durative : o.duration.isSome = durative
  duration : ∀ d ∈ o.duration, ∃ t ∈ f.duration, symbols.readDuration scope t = .ok d

theorem readOperator_eq_ok {t : Tree} {o : Operator} :
    symbols.readOperator t = .ok o ↔
      ∃ e keyword name fields stored scope, t = .list e (keyword :: .word name :: fields) ∧
        name.text = o.name ∧
        OperatorFields.empty.setAll (keyword.isWord ":durative-action") name fields = .ok stored ∧
        symbols.Stores stored (keyword.isWord ":durative-action") o scope := by
  simp only [readOperator, bind_eq_ok, Tree.expectItems_eq_ok]
  constructor
  · rintro ⟨items, ⟨e, rfl⟩, h⟩
    split at h
    · rename_i keyword name fields
      simp only [bind_eq_ok, Tree.expectWord_eq_ok] at h
      obtain ⟨name, rfl, stored, hstored, parameters, hparameters, scope, hbind, precondition,
        hprecondition, effect, heffect, h⟩ := h
      split at h
      · rename_i hdurative
        split at h
        · simp at h
        · rename_i t ht
          simp only [bind_eq_ok, pure_eq_ok] at h
          obtain ⟨d, hd, rfl⟩ := h
          exact ⟨e, keyword, name, fields, stored, scope, rfl, rfl, hstored, hparameters, hbind,
            hprecondition, heffect, hdurative.symm, by simpa using ⟨t, ht, hd⟩⟩
      · rename_i hdurative
        obtain rfl := pure_eq_ok.1 h
        exact ⟨e, keyword, name, fields, stored, scope, rfl, rfl, hstored, hparameters, hbind,
          hprecondition, heffect, by simpa using hdurative, by simp⟩
    · simp at h
  · rintro ⟨e, keyword, name, fields, stored, scope, rfl, hname, hset, h⟩
    refine ⟨_, ⟨e, rfl⟩, ?_⟩
    simp only [bind_eq_ok, Tree.expectWord_eq_ok]
    refine ⟨name, rfl, stored, hset, o.parameters, h.parameters, scope, h.bind, o.precondition,
      h.precondition, o.effect, h.effect, ?_⟩
    -- whether the section has a duration is now known from the operator
    rw [← h.durative, hname]
    cases hduration : o.duration with
    | none => exact pure_eq_ok.2 (by rw [← hduration])
    | some d =>
      obtain ⟨t, ht, hd⟩ := h.duration d hduration
      rw [Option.isSome_some, if_pos rfl, Option.mem_def.1 ht]
      simp only [bind_eq_ok, pure_eq_ok]
      exact ⟨d, hd, by rw [← hduration]⟩

theorem describes_of_readOperator {t : Tree} {o : Operator} (h : symbols.readOperator t = .ok o)
    (hplain : t.shape.Plain) : ∃ scope, symbols.Describes o scope := by
  obtain ⟨e, keyword, name, fields, stored, scope, rfl, hname, hset, hstores⟩ :=
    readOperator_eq_ok.1 h
  simp only [Tree.shape_list, List.map_cons, Shape.plain_list, List.forall_mem_cons,
    Tree.shape_word, Shape.plain_word, List.forall_mem_map] at hplain
  obtain ⟨-, hplainName, hfields⟩ := hplain
  have hstored := OperatorFields.plain_empty.setAll hfields hset
  refine ⟨scope, ?_⟩
  constructor
  case name => exact hname ▸ hplainName
  case parameters => exact declares_of_readParameters hstores.parameters hstored.parameters
  case bind => exact hstores.bind
  case precondition => exact denotes_of_readOptional hstores.precondition hstored.condition
  case effect => exact denotes_of_readOptional hstores.effect hstored.effect
  case duration =>
    intro d hd
    obtain ⟨t, ht, hduration⟩ := hstores.duration d hd
    obtain ⟨s, hs, hvalue⟩ := readDuration_eq_ok.1 hduration
    have hplain := hstored.duration t ht
    simp only [hs, Shape.plain_list, List.forall_mem_cons] at hplain
    exact ⟨s, hplain.2.2.1, hvalue⟩

end Symbols

end Pddl
