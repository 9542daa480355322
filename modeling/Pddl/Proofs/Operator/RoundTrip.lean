import Pddl.Proofs.Formula.Expansion
import Pddl.Proofs.Operator.Reader

namespace Pddl

open Text

def Duration.shape (d : Duration) : Shape :=
  .list [.word d.relation.text, .word "?duration", d.value.shape]

namespace Operator

/-- The operator as it is written, without free negation in its precondition. -/
def expanded (o : Operator) : Operator :=
  { o with precondition := .and (o.precondition.expandNegations o.parameters) }

def numbers (o : Operator) : List Number :=
  o.precondition.numbers ++ o.effect.numbers ++ o.duration.toList.flatMap (·.value.numbers)

def keyword (o : Operator) : String :=
  if o.duration.isSome then ":durative-action" else ":action"

def conditionKeyword (o : Operator) : String :=
  if o.duration.isSome then ":condition" else ":precondition"

def fieldShapes (o : Operator) : List Shape :=
  [.word ":parameters", .list (o.parameters.flatMap Entity.shapes)] ++
    (o.duration.toList.flatMap (fun d => [.word ":duration", d.shape]) ++
      ([.word o.conditionKeyword, o.precondition.shape] ++ [.word ":effect", o.effect.shape]))

def shape (o : Operator) : Shape :=
  .list (.word o.keyword :: .word o.name :: o.fieldShapes)

@[simp] theorem name_expanded (o : Operator) : o.expanded.name = o.name := rfl

@[simp] theorem parameters_expanded (o : Operator) : o.expanded.parameters = o.parameters := rfl

@[simp] theorem precondition_expanded (o : Operator) :
    o.expanded.precondition = .and (o.precondition.expandNegations o.parameters) := rfl

@[simp] theorem effect_expanded (o : Operator) : o.expanded.effect = o.effect := rfl

@[simp] theorem duration_expanded (o : Operator) : o.expanded.duration = o.duration := rfl

theorem expandNegations_expanded (o : Operator) :
    o.expanded.precondition.expandNegations o.expanded.parameters =
      o.precondition.expandNegations o.parameters :=
  Formula.expandNegations_expandNegations o.precondition o.parameters

theorem text_expanded (o : Operator) : o.expanded.text = o.text := by
  have hlines : o.expanded.conditionLines = o.conditionLines := by
    unfold conditionLines
    rw [expandNegations_expanded]
  unfold text
  rw [hlines, duration_expanded, name_expanded, parameters_expanded, effect_expanded]

end Operator

namespace OperatorFields

variable {f g : OperatorFields} {durative : Bool} {operator field : Excerpt} {value : Tree}

theorem setAll_cons (h : f.set durative operator field value = .ok g) (rest : List Tree) :
    f.setAll durative operator (.word field :: value :: rest) =
      g.setAll durative operator rest := by
  simp only [setAll, Tree.expectWord, ok_bind, h]

theorem set_parameters (hfield : field.text = ":parameters") (hvalue : value.isList = true) :
    f.set durative operator field value = .ok { f with parameters := value } :=
  set_eq_ok.2 ⟨hvalue, hfield ▸ .parameters⟩

theorem set_condition (hfield : field.text = if durative then ":condition" else ":precondition")
    (hvalue : value.isList = true) :
    f.set durative operator field value = .ok { f with condition := value } := by
  refine set_eq_ok.2 ⟨hvalue, ?_⟩
  cases durative with
  | false => exact hfield ▸ .precondition
  | true => exact hfield ▸ .condition

theorem set_duration (hfield : field.text = ":duration") (hvalue : value.isList = true) :
    f.set true operator field value = .ok { f with duration := value } :=
  set_eq_ok.2 ⟨hvalue, hfield ▸ .duration⟩

theorem set_effect (hfield : field.text = ":effect") (hvalue : value.isList = true) :
    f.set durative operator field value = .ok { f with effect := value } :=
  set_eq_ok.2 ⟨hvalue, hfield ▸ .effect⟩

theorem eq_field_of_shapes {ts : List Tree} {name : String} {s : Shape}
    (h : ts.map Tree.shape = [.word name, s]) :
    ∃ field value, ts = [.word field, value] ∧ field.text = name ∧ value.shape = s := by
  obtain ⟨field, value, rfl, hfield, hvalue⟩ := Tree.eq_pair_of_shapes h
  obtain ⟨field, rfl, hname⟩ := Tree.eq_word_of_shape hfield
  exact ⟨field, value, rfl, hname, hvalue⟩

theorem setAll_fieldShapes (operator : Excerpt) {o : Operator} {fields : List Tree}
    (hfields : fields.map Tree.shape = o.fieldShapes)
    (hcondition : ∀ t : Tree, t.shape = o.precondition.shape → t.isList = true)
    (heffect : ∀ t : Tree, t.shape = o.effect.shape → t.isList = true) :
    ∃ parameters condition duration effect,
      empty.setAll o.duration.isSome operator fields =
        .ok ⟨some parameters, some condition, duration, some effect⟩ ∧
      parameters.shape = .list (o.parameters.flatMap Entity.shapes) ∧
      condition.shape = o.precondition.shape ∧
      duration.map Tree.shape = o.duration.map Duration.shape ∧ effect.shape = o.effect.shape := by
  obtain ⟨_, _, rfl, hfirst, hrest⟩ := List.map_eq_append_iff.1 hfields
  obtain ⟨_, _, rfl, hthird, hrest'⟩ := List.map_eq_append_iff.1 hrest
  obtain ⟨_, _, rfl, hsecond, hlast⟩ := List.map_eq_append_iff.1 hrest'
  obtain ⟨p, parameters, rfl, hp, hparameters⟩ := eq_field_of_shapes hfirst
  obtain ⟨c, condition, rfl, hc, hcshape⟩ := eq_field_of_shapes hsecond
  obtain ⟨e, effect, rfl, he, heshape⟩ := eq_field_of_shapes hlast
  have hlist : parameters.isList = true := (Tree.isList_iff_shape _).2 (by simp [hparameters])
  have htail : ∀ duration, setAll ⟨some parameters, none, duration, none⟩ o.duration.isSome operator
      [.word c, condition, .word e, effect] =
        .ok ⟨some parameters, some condition, duration, some effect⟩ := by
    intro duration
    rw [setAll_cons (set_condition hc (hcondition _ hcshape)),
      setAll_cons (set_effect he (heffect _ heshape))]
    rfl
  cases hd : o.duration with
  | none =>
    rw [hd] at hthird htail
    obtain rfl := List.map_eq_nil_iff.1 hthird
    refine ⟨parameters, condition, none, effect, ?_, hparameters, hcshape, rfl, heshape⟩
    exact (setAll_cons (set_parameters hp hlist) _).trans (htail none)
  | some d =>
    rw [hd] at hthird htail
    obtain ⟨k, duration, rfl, hk, hdshape⟩ := eq_field_of_shapes hthird
    have hdlist : duration.isList = true :=
      (Tree.isList_iff_shape _).2 (by simp [hdshape, Duration.shape])
    refine ⟨parameters, condition, some duration, effect, ?_, hparameters, hcshape,
      by simp [hdshape], heshape⟩
    exact (setAll_cons (set_parameters hp hlist) _).trans
      ((setAll_cons (set_duration hk hdlist) _).trans (htail (some duration)))

end OperatorFields

namespace Symbols

variable {symbols : Symbols} {scope : Scope} {o : Operator}

/-- Whether the operator is what its own words describe. -/
structure Recovers (symbols : Symbols) (o : Operator) (scope : Scope) : Prop where
  parameters : symbols.types.Declares .reject (o.parameters.flatMap Entity.shapes) o.parameters
  bind : symbols.scope.bind o.parameters = .ok scope
  precondition : symbols.Denotes scope .condition o.precondition.shape o.precondition
  effect : symbols.Denotes scope .effect o.effect.shape o.effect
  duration : ∀ d ∈ o.duration, symbols.Values scope d.value.shape d.value

theorem readOptional_of_denotes {mode : Mode} {t : Tree} {f : Formula}
    (h : symbols.Denotes scope mode f.shape f) (ht : t.shape = f.shape) :
    symbols.readOptional scope mode (some t) = .ok f :=
  readFormula_eq_ok.2 (ht ▸ h)

theorem readParameters_of_declares {t : Tree} {es : List Entity}
    (h : symbols.types.Declares .reject (es.flatMap Entity.shapes) es)
    (ht : t.shape = .list (es.flatMap Entity.shapes)) :
    symbols.readParameters (some t) = .ok es := by
  obtain ⟨e, items, rfl, hitems⟩ := Tree.eq_list_of_shape ht
  exact Types.declaredEntities_eq_ok.2 (hitems ▸ h)

theorem readOperator_of_shape (h : symbols.Recovers o scope) {t : Tree} (ht : t.shape = o.shape) :
    symbols.readOperator t = .ok o := by
  obtain ⟨e, keyword, args, rfl, hkeyword, hargs⟩ := Tree.eq_headed_of_shape ht
  obtain ⟨word, fields, rfl, hword, hfields⟩ := List.map_eq_cons_iff.1 hargs
  obtain ⟨name, rfl, hname⟩ := Tree.eq_word_of_shape hword
  have hdurative : (Tree.word keyword).isWord ":durative-action" = o.duration.isSome := by
    rw [Tree.isWord, hkeyword, Operator.keyword]
    cases o.duration <;> simp
  obtain ⟨parameters, condition, duration, effect, hset, hparameters, hcondition, hduration,
    heffect⟩ := OperatorFields.setAll_fieldShapes name hfields
      (fun u hu => Denotes.isList (hu ▸ h.precondition)) (fun u hu => Denotes.isList (hu ▸ h.effect))
  rw [← hdurative] at hset
  have hstores : symbols.Stores ⟨some parameters, some condition, duration, some effect⟩
      ((Tree.word keyword).isWord ":durative-action") o scope := by
    constructor
    case parameters => exact readParameters_of_declares h.parameters hparameters
    case bind => exact h.bind
    case precondition => exact readOptional_of_denotes h.precondition hcondition
    case effect => exact readOptional_of_denotes h.effect heffect
    case durative => exact hdurative.symm
    case duration =>
      intro d hd
      rw [Option.mem_def.1 hd] at hduration
      obtain ⟨tree, rfl, htree⟩ := Option.map_eq_some_iff.1 hduration
      exact ⟨tree, rfl, readDuration_eq_ok.2 ⟨_, htree, h.duration d hd⟩⟩
  exact readOperator_eq_ok.2 ⟨e, _, name, fields, _, scope, rfl, hname, hset, hstores⟩

end Symbols

theorem Segment.of_field {t head : String} {cs : List Char} {s : Shape}
    (ht : t.toList = '\t' :: '\t' :: (head.toList ++ ' ' :: (cs ++ ['\n'])))
    (hhead : PlainWord head) (h : Spells cs [s]) : Segment t [.word head, s] := by
  have hfield : Spells (head.toList ++ ' ' :: cs) [.word head, s] :=
    .plain hhead (breaks_cons _ (Or.inl rfl)) (.gap (Or.inl rfl) h)
  refine .of_spaces ['\t', '\t'] _ ['\n'] ?_ (List.cons_ne_nil _ _) ?_ ?_ hfield
  · simp [ht]
  · simp [IsSpace]
  · simp [IsSpace]

namespace Operator

structure IsWritten (o : Operator) : Prop where
  name : PlainWord o.name
  parameters : ∀ e ∈ o.parameters, e.Plain
  precondition : ∀ f ∈ o.precondition.expandNegations o.parameters, f.IsWritten
  effect : o.effect.IsWritten
  duration : ∀ d ∈ o.duration, Spells d.value.text.toList [d.value.shape]

variable {o : Operator}

theorem segment_parameters (h : o.IsWritten) :
    Segment ("\t\t:parameters (" ++ Entity.texts o.parameters ++ ")\n")
      [.word ":parameters", .list (o.parameters.flatMap Entity.shapes)] :=
  .of_field (by simp) (by decide) (Entity.spells_texts h.parameters).single_list

theorem segment_duration (h : o.IsWritten) :
    Segment (concat (o.duration.toList.map durationLine))
      (o.duration.toList.flatMap fun d => [.word ":duration", d.shape]) := by
  cases hd : o.duration with
  | none => exact .empty
  | some d =>
    have hrelation : PlainWord d.relation.text := by cases d.relation <;> decide
    have hsubject : PlainWord "?duration" := by decide
    have hinside := (Spells.single_plain hrelation).append_blank
      ((Spells.single_plain hsubject).append_blank (h.duration d hd))
    have hline : Segment (durationLine d) [.word ":duration", d.shape] := by
      unfold durationLine
      exact .of_field (by simp) (by decide) hinside.single_list
    simpa [concat] using hline

theorem segment_conditionLines (h : o.IsWritten) :
    Segment (concat o.conditionLines)
      ((o.precondition.expandNegations o.parameters).map Formula.shape) := by
  rw [List.map_eq_flatMap, conditionLines]
  exact .lines "\t\t\t" (by simp) (by simp [IsSpace]) fun f hf => (h.precondition f hf).spells

theorem segment_condition (h : o.IsWritten) :
    Segment ("\t\t" ++ o.conditionKeyword ++ " (and\n" ++ concat o.conditionLines ++ "\t\t)\n")
      [.word o.conditionKeyword, o.expanded.precondition.shape] := by
  have hkeyword : PlainWord o.conditionKeyword := by
    unfold conditionKeyword
    split <;> decide
  have hand : PlainWord "and" := by decide
  have hlines := segment_conditionLines h
  have htabs : Spells ['\t', '\t'] [] := .gap (Or.inr (Or.inl rfl)) (.gap (Or.inr (Or.inl rfl)) .nil)
  have htail := hlines.spells.append htabs (breaks_cons _ (Or.inr (Or.inl rfl)))
  rw [List.append_nil] at htail
  have hinside := Spells.plain hand (breaks_cons _ (Or.inr (Or.inr (Or.inl rfl))))
    (.gap (Or.inr (Or.inr rfl)) htail)
  rw [precondition_expanded, Formula.shape, Formula.shapes_eq_map]
  exact .of_field (by simp) hkeyword hinside.single_list

theorem segment_effect (h : o.IsWritten) :
    Segment ("\t\t:effect " ++ o.effect.text ++ "\n") [.word ":effect", o.effect.shape] :=
  .of_field (by simp) (by decide) h.effect.spells

def fieldLines (o : Operator) : String :=
  "\t\t:parameters (" ++ Entity.texts o.parameters ++ ")\n" ++
    (concat (o.duration.toList.map durationLine) ++
      ("\t\t" ++ o.conditionKeyword ++ " (and\n" ++ concat o.conditionLines ++ "\t\t)\n" ++
        ("\t\t:effect " ++ o.effect.text ++ "\n")))

theorem toList_text (o : Operator) :
    o.text.toList =
      '\t' :: '(' :: (o.keyword.toList ++ ' ' :: (o.name.toList ++
        '\n' :: (o.fieldLines.toList ++ ['\t', ')']))) := by
  have htext : o.text = "\t(" ++ o.keyword ++ " " ++ o.name ++ "\n" ++
      "\t\t:parameters (" ++ Entity.texts o.parameters ++ ")\n" ++
      concat (o.duration.toList.map durationLine) ++ "\t\t" ++ o.conditionKeyword ++ " (and\n" ++
      concat o.conditionLines ++ "\t\t)\n" ++ "\t\t:effect " ++ o.effect.text ++ "\n" ++ "\t)" := by
    unfold text
    rw [keyword, conditionKeyword]
  rw [htext]
  unfold fieldLines
  simp

theorem segment_fieldLines (h : o.IsWritten) : Segment o.fieldLines o.expanded.fieldShapes :=
  (segment_parameters h).append
    ((segment_duration h).append ((segment_condition h).append (segment_effect h)))

theorem segment_text (h : o.IsWritten) : Segment ("\n" ++ o.text ++ "\n") [o.expanded.shape] := by
  have hkeyword : PlainWord o.keyword := by
    unfold keyword
    split <;> decide
  have hfields := (segment_fieldLines h).spells.append (.gap (Or.inr (Or.inl rfl)) .nil)
    (breaks_cons [] (Or.inr (Or.inl rfl)))
  rw [List.append_nil] at hfields
  have hname := Spells.plain h.name (breaks_cons _ (Or.inr (Or.inr (Or.inl rfl))))
    (.gap (Or.inr (Or.inr rfl)) hfields)
  have hinside := (Spells.single_plain hkeyword).append_blank hname
  refine .of_spaces ['\n', '\t'] _ ['\n'] ?_ (List.cons_ne_nil _ _) ?_ ?_ hinside.single_list
  · simp [toList_text]
  · simp [IsSpace]
  · simp [IsSpace]

end Operator

theorem Formula.nodes_of_mem_conjuncts {f g : Formula} (h : f ∈ g.conjuncts)
    (enclosing : List Entity) : f.nodes enclosing ⊆ g.nodes enclosing := by
  cases g with
  | and fs =>
    intro n hn
    rw [nodes, nodesAll_eq_flatMap]
    exact List.mem_cons_of_mem _ (List.mem_flatMap.2 ⟨f, h, hn⟩)
  | _ =>
    obtain rfl := List.mem_singleton.1 h
    exact List.Subset.refl _

namespace Symbols

variable {symbols : Symbols} {scope : Scope} {o : Operator}

/-- Whether the constants can be declared again and none of them is named like a variable. -/
structure Constant (symbols : Symbols) : Prop where
  declarable : ∀ e ∈ symbols.constants, symbols.types.Declarable .reject e
  plain : ∀ e ∈ symbols.constants, e.Plain
  constant : ∀ e ∈ symbols.constants, e.isVariable = false

theorem Constant.of_agrees {others : Symbols} (h : symbols.Constant)
    (hagrees : symbols.Agrees others) : others.Constant := by
  refine ⟨?_, ?_, ?_⟩ <;> rw [← hagrees.constants]
  · intro e he
    have hdeclarable := h.declarable e he
    exact { hdeclarable with admits := (hagrees.types.admits _).1 hdeclarable.admits }
  · exact h.plain
  · exact h.constant

namespace Describes

theorem declarable (h : symbols.Describes o scope) :
    ∀ e ∈ o.parameters, symbols.types.Declarable .reject e := by
  obtain ⟨ss, -, hparameters⟩ := h.parameters
  exact hparameters.declarable

theorem plain (h : symbols.Describes o scope) : ∀ e ∈ o.parameters, e.Plain := by
  obtain ⟨ss, hss, hparameters⟩ := h.parameters
  exact hparameters.plain hss

theorem mem_scope (h : symbols.Describes o scope) {e : Entity} (he : e ∈ scope) :
    e ∈ o.parameters ∨ e ∈ symbols.constants := by
  obtain ⟨rfl, -⟩ := Scope.bind_eq_ok.1 h.bind
  simpa [Symbols.scope, Scope.ofEntities] using he

theorem copyable (h : symbols.Describes o scope) (hconstants : symbols.Constant)
    (hseparate : symbols.types.Separate) : symbols.Copyable scope := by
  refine ⟨hseparate, fun e he _ => ?_, fun e he => ?_⟩
  · exact (h.mem_scope he).elim (h.declarable e) (hconstants.declarable e)
  · exact (h.mem_scope he).elim (h.plain e) (hconstants.plain e)

/-- Every variable that is visible in the precondition is a parameter. -/
theorem fits (h : symbols.Describes o scope) (hconstants : symbols.Constant) :
    Formula.Context.Fits ⟨[], (o.parameters ++ o.precondition.freeVariables).map Entity.name⟩
      scope := by
  refine ⟨by simp, fun e he hvariable => ?_⟩
  rcases h.mem_scope he with hparameter | hconstant
  · exact List.mem_map_of_mem (List.mem_append_left _ hparameter)
  · simp [hconstants.constant e hconstant] at hvariable

variable (h : symbols.Describes o scope) (hconstants : symbols.Constant)
  (hseparate : symbols.types.Separate)
  (hguard : ∀ f ∈ o.precondition.conjuncts, f.expands = true → symbols.predicate? "different" = none)
  (hnumbers : ∀ x ∈ o.numbers, x.ReadsBack)

include h hconstants hseparate hguard hnumbers

theorem restores_expandNegations :
    ∀ g ∈ o.precondition.expandNegations o.parameters, symbols.Restores scope .condition g := by
  obtain ⟨s, hs, hprecondition⟩ := h.precondition
  have hterms : ∀ f ∈ o.precondition.conjuncts, ∀ n ∈ f.nodes [], ∀ x ∈ n.numbers, x.ReadsBack := by
    intro f hf n hn x hx
    have hmem : x ∈ o.precondition.numbers :=
      List.mem_flatMap.2 ⟨n, Formula.nodes_of_mem_conjuncts hf [] hn, hx⟩
    exact hnumbers x (List.mem_append_left _ (List.mem_append_left _ hmem))
  exact Formula.restores_expandTerms (h.copyable hconstants hseparate) (h.fits hconstants) hguard
    (hprecondition.of_conjuncts hs) hterms

omit hconstants hguard in
theorem restores_effect : symbols.Restores scope .effect o.effect := by
  obtain ⟨s, hs, heffect⟩ := h.effect
  have hback : ∀ n ∈ o.effect.nodes [], ∀ x ∈ n.numbers, x.ReadsBack := by
    intro n hn x hx
    have hmem : x ∈ o.effect.numbers := List.mem_flatMap.2 ⟨n, hn, hx⟩
    exact hnumbers x (List.mem_append_left _ (List.mem_append_right _ hmem))
  exact heffect.restores hs hseparate hback

theorem recovers : symbols.Recovers o.expanded scope := by
  have hterms := h.restores_expandNegations hconstants hseparate hguard hnumbers
  refine ⟨?_, h.bind, ?_, (h.restores_effect hseparate hnumbers).denotes, fun d hd => ?_⟩
  · obtain ⟨ss, -, hparameters⟩ := h.parameters
    exact hparameters.shapes hseparate
  · rw [Operator.precondition_expanded, Formula.shape, Formula.shapes_eq_map]
    exact .and (List.length_map _) (forall_zip_map fun g hg => (hterms g hg).denotes)
  · obtain ⟨s, -, hvalue⟩ := h.duration d hd
    refine hvalue.shape fun x hx => hnumbers x (List.mem_append_right _ ?_)
    exact List.mem_flatMap.2 ⟨d, Option.mem_toList.2 hd, hx⟩

theorem isWritten : o.IsWritten := by
  have hterms := h.restores_expandNegations hconstants hseparate hguard hnumbers
  refine ⟨h.name, h.plain, fun g hg => (hterms g hg).written,
    (h.restores_effect hseparate hnumbers).written, fun d hd => ?_⟩
  obtain ⟨s, hs, hvalue⟩ := h.duration d hd
  exact Numeric.spells_text hvalue hs

end Describes

end Symbols

end Pddl
