import Pddl.Formula.Numeric

namespace Pddl

inductive Time where
  | atStart
  | atEnd
  | overAll
  deriving DecidableEq, Repr

namespace Time

def text : Time → String
  | .atStart => "at start"
  | .atEnd => "at end"
  | .overAll => "over all"

def index : Time → Nat
  | .atStart => 0
  | .atEnd => 1
  | .overAll => 2

end Time

/-- A condition or an effect. In a condition a negation is `not`; in an effect it is `delete`. -/
inductive Formula where
  | atom (atom : Application)
  | not (body : Formula)
  | delete (body : Formula)
  | and (terms : List Formula)
  | or (terms : List Formula)
  | imply (left right : Formula)
  | forAll (binders : List Entity) (body : Formula)
  | thereIs (binders : List Entity) (body : Formula)
  | when (condition effect : Formula)
  | assign (update : Update) (target : Application) (value : Numeric)
  | probabilistic (outcomes : List (Number × Formula))
  | comparison (relation : Relation) (term : Application) (value : Numeric)
  | equal (left right : Entity)
  | different (left right : Entity)
  | timed (time : Time) (body : Formula)
  deriving Repr

namespace Formula

def trivial : Formula := .and []

/-- The terms of a conjunction; every other formula is its own only term. -/
def conjuncts : Formula → List Formula
  | .and terms => terms
  | f => [f]

def atom? : Formula → Option Application
  | .atom a => some a
  | _ => none

def topLevelAtoms (f : Formula) : List Application := f.conjuncts.filterMap atom?

/-- Whether the formula is the negation of an atom, bare or under time qualifiers. -/
def negatesAtom : Formula → Bool
  | .not (.atom _) => true
  | .timed _ body => body.negatesAtom
  | _ => false

mutual

def isProbabilistic : Formula → Bool
  | .probabilistic _ => true
  | .not body => body.isProbabilistic
  | .delete body => body.isProbabilistic
  | .timed _ body => body.isProbabilistic
  | .and terms => anyProbabilistic terms
  | .or terms => anyProbabilistic terms
  | .imply l r => l.isProbabilistic || r.isProbabilistic
  | .when c e => c.isProbabilistic || e.isProbabilistic
  | .forAll _ body => body.isProbabilistic
  | .thereIs _ body => body.isProbabilistic
  | .atom _ => false
  | .assign _ _ _ => false
  | .comparison _ _ _ => false
  | .equal _ _ => false
  | .different _ _ => false

def anyProbabilistic : List Formula → Bool
  | [] => false
  | f :: fs => f.isProbabilistic || anyProbabilistic fs

end

end Formula

end Pddl
