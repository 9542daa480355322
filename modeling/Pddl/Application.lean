import Pddl.Error
import Pddl.Types

namespace Pddl

structure Application where
  head : String
  arguments : List Entity
  deriving DecidableEq, Repr

namespace Application

def variableArguments (a : Application) : List Entity := a.arguments.filter Entity.isVariable

def isGround (a : Application) : Bool := a.arguments.all (!·.isVariable)

def substitute (b : Bindings) (a : Application) : Application :=
  ⟨a.head, a.arguments.map b.apply⟩

protected def compare (a b : Application) : Ordering :=
  (Ord.compare a.head b.head).then (Sorted.compareLists a.arguments b.arguments)

instance : Ord Application := ⟨Application.compare⟩

def text (a : Application) : String :=
  "(" ++ a.head ++ Text.trailing (a.arguments.map Entity.name) ++ ")"

end Application

structure Signature where
  name : String
  parameters : List String
  deriving DecidableEq, Repr

namespace Signature

def arity (s : Signature) : Nat := s.parameters.length

/-- The first argument whose type is not consistent with the declared one. -/
def firstMismatch (s : Signature) (types : Types) (arguments : List Entity) :
    Option (String × Entity) :=
  (s.parameters.zip arguments).find? fun (expected, e) => !types.isConsistent e.type expected

def apply (s : Signature) (types : Types) (arguments : List Entity) : Except Error Application :=
  if s.arity ≠ arguments.length then .error (.arity s.name s.arity arguments.length)
  else match s.firstMismatch types arguments with
    | some (expected, e) => .error (.type (.argument e.name s.name e.type expected))
    | none => .ok ⟨s.name, arguments⟩

def find? (name : String) (signatures : List Signature) : Option Signature :=
  List.find? (·.name = name) signatures

end Signature

end Pddl
