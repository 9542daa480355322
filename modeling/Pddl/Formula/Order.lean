import Pddl.Formula.Basic

namespace Pddl.Formula

def index : Formula → Nat
  | .atom _ => 0
  | .not _ => 1
  | .delete _ => 2
  | .and _ => 3
  | .or _ => 4
  | .imply _ _ => 5
  | .forAll _ _ => 6
  | .thereIs _ _ => 7
  | .when _ _ => 8
  | .assign _ _ _ => 9
  | .probabilistic _ => 10
  | .comparison _ _ _ => 11
  | .equal _ _ => 12
  | .different _ _ => 13
  | .timed _ _ => 14

mutual

protected def compare : Formula → Formula → Ordering
  | .atom a, .atom b => Ord.compare a b
  | .not f, .not g => f.compare g
  | .delete f, .delete g => f.compare g
  | .and fs, .and gs => compareAll fs gs
  | .or fs, .or gs => compareAll fs gs
  | .imply l r, .imply m s => (l.compare m).then (r.compare s)
  | .forAll vs f, .forAll ws g => (Sorted.compareLists vs ws).then (f.compare g)
  | .thereIs vs f, .thereIs ws g => (Sorted.compareLists vs ws).then (f.compare g)
  | .when c e, .when d g => (c.compare d).then (e.compare g)
  | .assign u t v, .assign w s x =>
    ((Ord.compare u.index w.index).then (Ord.compare t s)).then (Ord.compare v x)
  | .probabilistic os, .probabilistic ps => compareOutcomes os ps
  | .comparison r t v, .comparison q s x =>
    ((Ord.compare r.index q.index).then (Ord.compare t s)).then (Ord.compare v x)
  | .equal a b, .equal c d => (Ord.compare a c).then (Ord.compare b d)
  | .different a b, .different c d => (Ord.compare a c).then (Ord.compare b d)
  | .timed t f, .timed u g => (Ord.compare t.index u.index).then (f.compare g)
  | f, g => Ord.compare f.index g.index

def compareAll : List Formula → List Formula → Ordering
  | [], [] => .eq
  | [], _ :: _ => .lt
  | _ :: _, [] => .gt
  | f :: fs, g :: gs => (f.compare g).then (compareAll fs gs)

def compareOutcomes : List (Number × Formula) → List (Number × Formula) → Ordering
  | [], [] => .eq
  | [], _ :: _ => .lt
  | _ :: _, [] => .gt
  | (p, f) :: os, (q, g) :: ps =>
    ((Ord.compare p q).then (f.compare g)).then (compareOutcomes os ps)

end

instance : Ord Formula := ⟨Formula.compare⟩

/-- Equality in the order, where the two zeros are the same number. -/
def same (f g : Formula) : Bool := f.compare g = .eq

end Pddl.Formula
