import Pddl.Sorted
import Pddl.Text.Join

namespace Pddl

def implicitType : String := "default"

def objectType : String := "object"

/-- A name beginning with a question mark is a variable. -/
def isVariableName (name : String) : Bool :=
  name.toList.head? = some '?'

structure Entity where
  name : String
  type : String
  deriving DecidableEq, Repr

namespace Entity

def isVariable (e : Entity) : Bool := isVariableName e.name

protected def compare (a b : Entity) : Ordering :=
  (Ord.compare a.name b.name).then (Ord.compare a.type b.type)

instance : Ord Entity := ⟨Entity.compare⟩

def text (e : Entity) : String :=
  if e.type = implicitType then e.name else e.name ++ " - " ++ e.type

def texts (es : List Entity) : String := Text.words (es.map text)

end Entity

/-- What names stand for; of two entries for a name the first counts. -/
abbrev Bindings := List (String × Entity)

namespace Bindings

def find? (b : Bindings) (name : String) : Option Entity := b.lookup name

def without (b : Bindings) (names : List Entity) : Bindings :=
  b.filter fun (name, _) => !names.any (·.name = name)

def apply (b : Bindings) (e : Entity) : Entity := (b.find? e.name).getD e

def ofParameters (parameters objects : List Entity) : Bindings :=
  (parameters.map Entity.name).zip objects

end Bindings

/-- The names visible at a place with their types, the innermost first. -/
abbrev Scope := List Entity

namespace Scope

/-- The scope in which a later entity hides an earlier one of the same name. -/
def ofEntities (es : List Entity) : Scope := es.reverse

def find? (s : Scope) (name : String) : Option Entity := List.find? (·.name = name) s

def contains (s : Scope) (name : String) : Bool := (s.find? name).isSome

end Scope

end Pddl
