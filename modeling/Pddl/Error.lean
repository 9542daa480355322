import Pddl.Number.Shortest
import Pddl.Text.Position

namespace Pddl

/-- The two kinds of formulas: what must hold, and what an operator brings about. -/
inductive Mode where
  | condition
  | effect
  deriving DecidableEq, Repr

def Mode.plural : Mode → String
  | .condition => "conditions"
  | .effect => "effects"

inductive Fault where
  | expected (what : String)
  | expectedFound (what : String) (found : String)
  | missing (what : String)
  | empty (what : String)
  | unclosed
  | unopened
  | trailingText
  | eitherType
  | argumentCount (keyword : String) (needed given : Nat)
  | wrongMode (keyword : String) (allowed : Mode)
  | tooFewOperands (operation : String)
  | unpairedOutcomes
  | improbable (probability : Number)
  | overfull (total : Number)
  | unexpectedField (field operator : String)
  | unknownRelation (relation : String)
  | unrecognized (near : String)
  deriving DecidableEq, Repr

def Fault.message : Fault → String
  | .expected what => "expected " ++ what
  | .expectedFound what found => "expected " ++ what ++ ", found `" ++ found ++ "`"
  | .missing what => "missing " ++ what
  | .empty what => "empty " ++ what
  | .unclosed => "unbalanced parentheses: missing `)`"
  | .unopened => "unbalanced parentheses: unexpected `)`"
  | .trailingText => "unexpected text after the expression"
  | .eitherType => "`either` types are not supported"
  | .argumentCount keyword needed given =>
    "`" ++ keyword ++ "` expects " ++ toString needed ++ " argument(s) but was given " ++
      toString given
  | .wrongMode keyword allowed => "`" ++ keyword ++ "` is only allowed in " ++ allowed.plural
  | .tooFewOperands operation => "`" ++ operation ++ "` expects at least two operands"
  | .unpairedOutcomes => "`probabilistic` expects pairs of a probability and an outcome"
  | .improbable probability =>
    "probability " ++ probability.toString ++ " is not between 0 and 1"
  | .overfull total =>
    "outcome probabilities sum to " ++ total.toString ++ ", which is more than 1"
  | .unexpectedField field operator => "unexpected field `" ++ field ++ "` in `" ++ operator ++ "`"
  | .unknownRelation relation => "unknown duration relation `" ++ relation ++ "`"
  | .unrecognized near => "unrecognized input near `" ++ near ++ "`"

inductive SymbolKind where
  | predicate
  | function
  | type
  deriving DecidableEq, Repr

def SymbolKind.text : SymbolKind → String
  | .predicate => "predicate"
  | .function => "function"
  | .type => "type"

inductive TypeFault where
  | notTyped (type : String)
  | lacksType (name : String)
  | reserved (type : String)
  | lacksSupertype (type : String)
  | argument (name head found expected : String)
  deriving DecidableEq, Repr

def TypeFault.message : TypeFault → String
  | .notTyped type => "type `" ++ type ++ "` used in a domain that declares no types"
  | .lacksType name => "`" ++ name ++ "` has no type but the domain uses typing"
  | .reserved type => "`" ++ type ++ "` is reserved for untyped domains"
  | .lacksSupertype type =>
    "type `" ++ type ++
      "` has no supertype, hierarchical and flat type declarations cannot be mixed"
  | .argument name head found expected =>
    "argument `" ++ name ++ "` of `" ++ head ++ "` has type `" ++ found ++ "` but `" ++ expected ++
      "` was expected"

inductive StepFault where
  | unknown (name : String)
  | noActionPredicate (operator : String)
  deriving DecidableEq, Repr

def StepFault.message : StepFault → String
  | .unknown name => "no operator or action named `" ++ name ++ "`"
  | .noActionPredicate operator =>
    "operator `" ++ operator ++ "` has no action predicate in its precondition"

inductive Error where
  | malformed (line column : Nat) (fault : Fault)
  | undefined (kind : SymbolKind) (name : String)
  | arity (name : String) (needed given : Nat)
  | unbound (name : String)
  | type (fault : TypeFault)
  | redeclared (name : String)
  | collision (name : String)
  | otherDomain (expected found : String)
  | step (fault : StepFault)
  | ambiguousObject (name : String) (matching : Nat)
  | notProbabilistic (domain : String)
  | inaccessible (path : String)
  | unreadableConfig
  | contradictoryConfig
  deriving DecidableEq, Repr

def Error.message : Error → String
  | .malformed line column fault =>
    "syntax error at line " ++ toString line ++ ", column " ++ toString column ++ ": " ++
      fault.message
  | .undefined kind name => "undefined " ++ kind.text ++ " `" ++ name ++ "`"
  | .arity name needed given =>
    "`" ++ name ++ "` expects " ++ toString needed ++ " argument(s) but was given " ++
      toString given
  | .unbound name => "argument `" ++ name ++ "` is not bound in the current scope"
  | .type fault => "type mismatch: " ++ fault.message
  | .redeclared name => "variable `" ++ name ++ "` is already bound in an enclosing scope"
  | .collision name => "`" ++ name ++ "` is declared both as a predicate and as an action"
  | .otherDomain expected found =>
    "problem refers to domain `" ++ found ++ "` but was paired with domain `" ++ expected ++ "`"
  | .step fault => "unrecognized plan step `" ++ fault.message ++ "`"
  | .ambiguousObject name matching =>
    "object name `" ++ name ++ "` matched " ++ toString matching ++
      " objects, expected exactly one"
  | .notProbabilistic domain =>
    "domain `" ++ domain ++ "` has no probabilistic effects to determinize"
  | .inaccessible path => "failed to access " ++ path
  | .unreadableConfig => "failed to parse configuration"
  | .contradictoryConfig =>
    "invalid configuration: `operators-as-actions` and `expect-action-predicates` " ++
      "are mutually exclusive"

def Position.fault (p : Position) (fault : Fault) : Error :=
  .malformed p.line p.column fault

def Excerpt.fault (e : Excerpt) (fault : Fault) : Error :=
  e.start.fault fault

end Pddl
