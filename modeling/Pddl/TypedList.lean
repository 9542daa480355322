import Pddl.Application
import Pddl.Report
import Pddl.Tree.Basic

namespace Pddl

structure TypedName where
  name : Excerpt
  type : Option Excerpt
  deriving DecidableEq, Repr

/-- The names in `trees` behind the names `pending`, which are listed backwards and still without
a type. -/
def typedNamesAfter (pending : List Excerpt) : List Tree → Except Error (List TypedName)
  | [] => .ok (pending.reverse.map (⟨·, none⟩))
  | t :: rest => do
    let name ← t.expectWord "a name"
    if name.text ≠ "-" then typedNamesAfter (name :: pending) rest
    else match rest with
      | .word type :: rest =>
        if type.text = "-" then .error (name.fault (.expected "a type name after `-`"))
        else if pending.isEmpty then .error (name.fault (.expected "names before `-`"))
        else do
          let others ← typedNamesAfter [] rest
          return pending.reverse.map (⟨·, some type⟩) ++ others
      | .list e _ :: _ => .error (e.fault .eitherType)
      | .broken e _ :: _ => .error (e.fault .eitherType)
      | [] => .error (name.fault (.expected "a type name after `-`"))

/-- Every name with the type of its group; the last group may do without one. -/
def typedNames (trees : List Tree) : Except Error (List TypedName) :=
  typedNamesAfter [] trees

inductive Undeclared where
  | reject
  | adHoc
  deriving DecidableEq, Repr

def Types.resolve (t : Types) (policy : Undeclared) (word : Excerpt) : Report String :=
  let name := word.text
  if !t.usesTyping then
    if name = implicitType then pure name else .ofExcept (.error (.type (.notTyped name)))
  else if t.contains name || name = objectType then pure name
  else match policy with
    | .reject => .ofExcept (.error (.undefined .type name))
    | .adHoc => do
      Report.warn (.adHocType name word.start.line)
      return name

/-- The entity of a name: a type is required exactly when the domain uses typing. -/
def Types.entity (t : Types) (policy : Undeclared) (n : TypedName) : Report Entity :=
  match n.type with
  | some type => do
    let type ← t.resolve policy type
    return ⟨n.name.text, type⟩
  | none =>
    if t.usesTyping then .ofExcept (.error (.type (.lacksType n.name.text)))
    else pure ⟨n.name.text, implicitType⟩

def Types.entitiesOf (t : Types) (policy : Undeclared) : List TypedName → Report (List Entity)
  | [] => pure []
  | n :: ns => do
    let e ← t.entity policy n
    let es ← t.entitiesOf policy ns
    return e :: es

def Types.entities (t : Types) (policy : Undeclared) (trees : List Tree) : Report (List Entity) := do
  let names ← Report.ofExcept (typedNames trees)
  t.entitiesOf policy names

def Types.declaredEntities (t : Types) (trees : List Tree) : Except Error (List Entity) :=
  (t.entities .reject trees).result

end Pddl
