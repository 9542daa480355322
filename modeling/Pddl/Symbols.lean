import Pddl.Application

namespace Pddl

structure Symbols where
  types : Types
  predicates : List Signature
  functions : List Signature
  constants : List Entity
  deriving DecidableEq, Repr

namespace Symbols

def predicate? (s : Symbols) (name : String) : Option Signature :=
  Signature.find? name s.predicates

def function? (s : Symbols) (name : String) : Option Signature :=
  Signature.find? name s.functions

def scope (s : Symbols) : Scope := Scope.ofEntities s.constants

end Symbols

/-- The scope with further names; none of them may be visible already. -/
def Scope.bind (s : Scope) : List Entity → Except Error Scope
  | [] => .ok s
  | e :: es => if s.contains e.name then .error (.redeclared e.name) else Scope.bind (e :: s) es

end Pddl
