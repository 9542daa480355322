import Pddl.Proofs.Formula.Blame
import Pddl.Proofs.Operator.Reader

namespace Pddl

variable {R : Error → Prop}

namespace OperatorFields

def trees (f : OperatorFields) : List Tree :=
  [f.parameters, f.condition, f.duration, f.effect].flatMap Option.toList

variable {f next : OperatorFields} {durative : Bool} {operator : Excerpt}

theorem blames_set {field : Excerpt} {value : Tree} (hfield : field.Blamed R)
    (hvalue : value.Blamed R) : Blames R (f.set durative operator field value) := by
  unfold set
  split
  case h_6 => exact hfield.blames _
  all_goals exact (hvalue.expectList _).bind fun list _ => blames_pure _

theorem Stores.trees_subset {name : String} {value : Tree}
    (h : f.Stores value durative name next) : next.trees ⊆ value :: f.trees := by
  intro t ht
  cases h <;>
    simp only [trees, List.flatMap_cons, List.flatMap_nil, Option.toList_some, List.mem_append,
      List.mem_cons, List.not_mem_nil, or_false] at ht ⊢ <;>
    tauto

/-- Storing fields blames nothing but the trees that list them, and what is stored is among these. -/
theorem blames_setAll {ts : List Tree} (h : ∀ t ∈ f.trees, t.Blamed R)
    (hts : ∀ t ∈ ts, t.Blamed R) :
    Blames R (f.setAll durative operator ts) ∧
      ∀ next, f.setAll durative operator ts = .ok next → ∀ t ∈ next.trees, t.Blamed R := by
  induction ts using List.twoStepInduction generalizing f with
  | nil =>
    refine ⟨blames_ok f, fun next hnext => ?_⟩
    obtain rfl : f = next := by simpa [setAll] using hnext
    exact h
  | singleton t =>
    have ht := hts t List.mem_cons_self
    refine ⟨(ht.expectWord _).bind fun field hfield => (ht.of_expectWord hfield).blames _,
      fun next hnext => ?_⟩
    simp [setAll, bind_eq_ok] at hnext
  | cons_cons field value ts ih _ =>
    simp only [List.forall_mem_cons] at hts
    obtain ⟨hfield, hvalue, hrest⟩ := hts
    have hstored : ∀ {word : Excerpt} {middle : OperatorFields},
        f.set durative operator word value = .ok middle → ∀ t ∈ middle.trees, t.Blamed R :=
      fun hmiddle t ht =>
        List.forall_mem_cons.2 ⟨hvalue, h⟩ t ((set_eq_ok.1 hmiddle).2.trees_subset ht)
    constructor
    · refine (hfield.expectWord _).bind fun word hword => ?_
      exact (blames_set (hfield.of_expectWord hword) hvalue).bind fun middle hmiddle =>
        (ih (hstored hmiddle) hrest).1
    · intro next hnext
      simp only [setAll, bind_eq_ok] at hnext
      obtain ⟨word, -, middle, hmiddle, hnext⟩ := hnext
      exact (ih (hstored hmiddle) hrest).2 next hnext

end OperatorFields

namespace Symbols

variable (symbols : Symbols) (scope : Scope) {t : Tree}

theorem blames_readDuration (h : t.Blamed R) : Blames R (symbols.readDuration scope t) := by
  refine (h.expectItems _).bind fun items hitems => ?_
  have hblamed := h.of_expectItems hitems
  split
  · simp only [List.forall_mem_cons] at hblamed
    refine (hblamed.1.expectWord _).bind fun word hword => ?_
    split
    · exact (hblamed.1.of_expectWord hword).blames _
    · split
      · exact hblamed.2.1.blames _
      · exact (symbols.blames_readNumeric scope hblamed.2.2.1).bind fun value _ => blames_pure _
  · exact h.blames _

theorem blames_readParameters {list : Option Tree} (h : ∀ t ∈ list, t.Blamed R) :
    Blames R (symbols.readParameters list) := by
  cases list with
  | none => exact blames_ok _
  | some t =>
    have ht : t.Blamed R := h t rfl
    exact (ht.expectItems _).bind fun trees htrees =>
      symbols.types.blames_declaredEntities (ht.of_expectItems htrees)

theorem blames_readOptional (mode : Mode) {body : Option Tree} (h : ∀ t ∈ body, t.Blamed R) :
    Blames R (symbols.readOptional scope mode body) := by
  cases body with
  | none => exact blames_ok _
  | some t => exact trusts_of_blamed (h t rfl) _ _ _

theorem blames_readOperator (h : t.Blamed R) : Blames R (symbols.readOperator t) := by
  refine (h.expectItems _).bind fun items hitems => ?_
  have hblamed := h.of_expectItems hitems
  split
  · simp only [List.forall_mem_cons] at hblamed
    obtain ⟨-, hname, hfields⟩ := hblamed
    refine (hname.expectWord _).bind fun name hword => ?_
    obtain ⟨hset, hstored⟩ := OperatorFields.blames_setAll
      (f := .empty) (by simp [OperatorFields.trees, OperatorFields.empty]) hfields
    refine hset.bind fun fields hf => ?_
    have hvalues := hstored fields hf
    simp only [OperatorFields.trees, List.flatMap_cons, List.flatMap_nil, List.append_nil,
      List.forall_mem_append, Option.mem_toList] at hvalues
    obtain ⟨hparameters, hcondition, hduration, heffect⟩ := hvalues
    refine (symbols.blames_readParameters hparameters).bind fun parameters _ => ?_
    refine (Scope.blames_bind _ parameters).bind fun scope _ => ?_
    refine (symbols.blames_readOptional scope _ hcondition).bind fun precondition _ => ?_
    refine (symbols.blames_readOptional scope _ heffect).bind fun effect _ => ?_
    split
    · split
      · exact (hname.of_expectWord hword).blames _
      · rename_i d hd
        exact (symbols.blames_readDuration scope (hduration d hd)).bind
          fun duration _ => blames_pure _
    · exact blames_pure _
  · exact h.blames _

end Symbols

end Pddl
