import Pddl.Application

namespace Pddl

inductive Arithmetic where
  | plus
  | minus
  | times
  | over
  deriving DecidableEq, Repr

namespace Arithmetic

def text : Arithmetic → String
  | .plus => "+"
  | .minus => "-"
  | .times => "*"
  | .over => "/"

def all : List Arithmetic := [.plus, .minus, .times, .over]

def ofText? (s : String) : Option Arithmetic := all.find? (·.text = s)

def index : Arithmetic → Nat
  | .plus => 0
  | .minus => 1
  | .times => 2
  | .over => 3

end Arithmetic

inductive Relation where
  | equal
  | greater
  | less
  | atLeast
  | atMost
  deriving DecidableEq, Repr

namespace Relation

def text : Relation → String
  | .equal => "="
  | .greater => ">"
  | .less => "<"
  | .atLeast => ">="
  | .atMost => "<="

def all : List Relation := [.equal, .greater, .less, .atLeast, .atMost]

def ofText? (s : String) : Option Relation := all.find? (·.text = s)

def index : Relation → Nat
  | .equal => 0
  | .greater => 1
  | .less => 2
  | .atLeast => 3
  | .atMost => 4

end Relation

inductive Update where
  | assign
  | increase
  | decrease
  | scaleUp
  | scaleDown
  deriving DecidableEq, Repr

namespace Update

def text : Update → String
  | .assign => "assign"
  | .increase => "increase"
  | .decrease => "decrease"
  | .scaleUp => "scale-up"
  | .scaleDown => "scale-down"

def all : List Update := [.assign, .increase, .decrease, .scaleUp, .scaleDown]

def ofText? (s : String) : Option Update := all.find? (·.text = s)

def index : Update → Nat
  | .assign => 0
  | .increase => 1
  | .decrease => 2
  | .scaleUp => 3
  | .scaleDown => 4

end Update

inductive Numeric where
  | number (value : Number)
  | function (term : Application)
  | binary (operation : Arithmetic) (left right : Numeric)
  deriving DecidableEq, Repr

namespace Numeric

/-- The variables from left to right, with repetitions. -/
def variableArguments : Numeric → List Entity
  | .number _ => []
  | .function t => t.variableArguments
  | .binary _ l r => l.variableArguments ++ r.variableArguments

def substitute (b : Bindings) : Numeric → Numeric
  | .number v => .number v
  | .function t => .function (t.substitute b)
  | .binary o l r => .binary o (l.substitute b) (r.substitute b)

def text : Numeric → String
  | .number v => v.toString
  | .function t => t.text
  | .binary o l r => "(" ++ o.text ++ " " ++ l.text ++ " " ++ r.text ++ ")"

/-- Numbers come first, then function terms, then arithmetic by operation and operands. -/
protected def compare : Numeric → Numeric → Ordering
  | .number v, .number w => Ord.compare v w
  | .number _, _ => .lt
  | .function t, .function u => Ord.compare t u
  | .function _, .number _ => .gt
  | .function _, .binary _ _ _ => .lt
  | .binary o l r, .binary p m s =>
    ((Ord.compare o.index p.index).then (l.compare m)).then (r.compare s)
  | .binary _ _ _, _ => .gt

instance : Ord Numeric := ⟨Numeric.compare⟩

end Numeric

end Pddl
