import Pddl.Formula.Reader
import Pddl.Operator.Basic

namespace Pddl

/-- The fields of an operator before they are read; of a repeated field the last counts. -/
structure OperatorFields where
  parameters : Option Tree
  condition : Option Tree
  duration : Option Tree
  effect : Option Tree

namespace OperatorFields

def empty : OperatorFields := ⟨none, none, none, none⟩

/-- Stores the value of one field; which fields there are depends on whether the operator takes
time. -/
def set (f : OperatorFields) (durative : Bool) (operator : Excerpt) (field : Excerpt)
    (value : Tree) : Except Error OperatorFields :=
  match field.text, durative with
  | ":parameters", _ => do
    let list ← value.expectList "a parameter list"
    return { f with parameters := list }
  | ":precondition", false => do
    let list ← value.expectList "a formula"
    return { f with condition := list }
  | ":condition", true => do
    let list ← value.expectList "a formula"
    return { f with condition := list }
  | ":duration", true => do
    let list ← value.expectList "a duration constraint"
    return { f with duration := list }
  | ":effect", _ => do
    let list ← value.expectList "a formula"
    return { f with effect := list }
  | other, _ => .error (field.fault (.unexpectedField other operator.text))

def setAll (f : OperatorFields) (durative : Bool) (operator : Excerpt) :
    List Tree → Except Error OperatorFields
  | [] => .ok f
  | [field] => do
    let field ← field.expectWord "an operator field such as `:parameters`"
    .error (field.fault (.missing "value"))
  | field :: value :: rest => do
    let field ← field.expectWord "an operator field such as `:parameters`"
    let f ← f.set durative operator field value
    f.setAll durative operator rest

end OperatorFields

def Symbols.readDuration (symbols : Symbols) (scope : Scope) (t : Tree) :
    Except Error Duration := do
  let items ← t.expectItems "a duration constraint"
  match items with
  | [relation, subject, value] => do
    let word ← relation.expectWord "a comparison"
    match Relation.ofText? word.text with
    | none => .error (word.fault (.unknownRelation word.text))
    | some relation =>
      if !subject.isWord "?duration" then .error (subject.fault (.expected "`?duration`"))
      else do
        let value ← symbols.readNumeric scope value
        return ⟨relation, value⟩
  | _ => .error (t.fault (.expected "`(<relation> ?duration <value>)`"))

def Symbols.readParameters (symbols : Symbols) : Option Tree → Except Error (List Entity)
  | none => .ok []
  | some list => do
    let trees ← list.expectItems "a parameter list"
    symbols.types.declaredEntities trees

def Symbols.readOptional (symbols : Symbols) (scope : Scope) (mode : Mode) :
    Option Tree → Except Error Formula
  | none => .ok .trivial
  | some t => symbols.readFormula "a formula" scope mode t

/-- Reads an operator. Its parameters must differ from each other and from the constants. -/
def Symbols.readOperator (symbols : Symbols) (t : Tree) : Except Error Operator := do
  let items ← t.expectItems "an operator"
  match items with
  | keyword :: name :: fields => do
    let durative := keyword.isWord ":durative-action"
    let name ← name.expectWord "an operator name"
    let fields ← OperatorFields.empty.setAll durative name fields
    let parameters ← symbols.readParameters fields.parameters
    let scope ← symbols.scope.bind parameters
    let precondition ← symbols.readOptional scope .condition fields.condition
    let effect ← symbols.readOptional scope .effect fields.effect
    if durative then
      match fields.duration with
      | none => .error (name.fault (.missing "`:duration`"))
      | some d => do
        let duration ← symbols.readDuration scope d
        return ⟨name.text, parameters, precondition, effect, some duration⟩
    else return ⟨name.text, parameters, precondition, effect, none⟩
  | _ => .error (t.fault (.expected "an operator name"))

end Pddl
