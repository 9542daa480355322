
namespace Pddl

/-- A binary64 number, held exactly; `units` counts multiples of `2 ^ -1074`. -/
inductive Number where
  | nan
  | infinite (negative : Bool)
  | finite (negative : Bool) (units : Nat)
  deriving DecidableEq, Repr

namespace Number

def unitsPerOne : Nat := Nat.pow 2 1074

/-- The first magnitude in units that is too large to be finite. -/
def unitsLimit : Nat := Nat.pow 2 2098

/-- The whole number nearest to `num / den`; a half goes to the even neighbour. -/
def roundDiv (num den : Nat) : Nat :=
  let q := num / den
  let r := num % den
  if 2 * r < den then q
  else if 2 * r = den then q + q % 2
  else q + 1

/-- `num / den` units rounded to fifty-three significant bits. -/
def roundUnits (num den : Nat) : Nat :=
  let shift := (num / den).log2 - 52
  roundDiv num (den * Nat.pow 2 shift) * Nat.pow 2 shift

/-- The number nearest to `num / den` units; beyond the finite range it is infinite. -/
def ofUnits (negative : Bool) (num den : Nat) : Number :=
  let units := roundUnits num den
  if units < unitsLimit then .finite negative units else .infinite negative

def zero : Number := .finite false 0

def one : Number := .finite false unitsPerOne

def neg : Number → Number
  | .nan => .nan
  | .infinite s => .infinite (!s)
  | .finite s u => .finite (!s) u

/-- The rounded sum; opposite infinities have none, and a sum that cancels is positive zero. -/
def add : Number → Number → Number
  | .nan, _ => .nan
  | _, .nan => .nan
  | .infinite s, .infinite t => if s = t then .infinite s else .nan
  | .infinite s, .finite _ _ => .infinite s
  | .finite _ _, .infinite t => .infinite t
  | .finite s m, .finite t n =>
    if s = t then ofUnits s (m + n) 1
    else if m = n then zero
    else if n < m then ofUnits s (m - n) 1
    else ofUnits t (n - m) 1

def sub (a b : Number) : Number := a.add b.neg

/-- Places a number among all numbers: negative infinity, the finite ones, infinity, and last the
undefined number; both zeros share one place. -/
def rank : Number → Nat × Int
  | .infinite true => (0, 0)
  | .finite true u => (1, -u)
  | .finite false u => (1, u)
  | .infinite false => (2, 0)
  | .nan => (3, 0)

/-- The total order of `rank`. -/
protected def compare (a b : Number) : Ordering :=
  (Ord.compare a.rank.1 b.rank.1).then (Ord.compare a.rank.2 b.rank.2)

instance : Ord Number := ⟨Number.compare⟩

def lt (a b : Number) : Bool :=
  a ≠ .nan && b ≠ .nan && Number.compare a b = .lt

def le (a b : Number) : Bool :=
  a ≠ .nan && b ≠ .nan && Number.compare a b ≠ .gt

def sum (ns : List Number) : Number := ns.foldl add zero

end Number

end Pddl
