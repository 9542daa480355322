import Pddl.Number.Decimal

namespace Pddl.Number

structure Decimal where
  coefficient : Nat
  exponent : Int
  deriving DecidableEq, Repr

/-- Least `k` from `first` on, among `fuel` candidates, with `10 ^ k * units` at least one. -/
def leadingPlace (units : Nat) : Nat → Nat → Nat
  | 0, k => k
  | fuel + 1, k => if unitsPerOne ≤ units * Nat.pow 10 k then k else leadingPlace units fuel (k + 1)

/-- The power of ten of the first significant digit. -/
def magnitude (units : Nat) : Int :=
  if unitsPerOne ≤ units then ((Nat.toDigits 10 (units / unitsPerOne)).length : Int) - 1
  else -(leadingPlace units 324 1 : Int)

/-- `units` as a fraction whose unit is `10 ^ exponent`. -/
def onGrid (units : Nat) : Int → Nat × Nat
  | .ofNat k => (units, unitsPerOne * Nat.pow 10 k)
  | .negSucc k => (units * Nat.pow 10 (k + 1), unitsPerOne)

def Decimal.readsAs (d : Decimal) (units : Nat) : Bool :=
  ofDecimal false d.coefficient d.exponent = .finite false units

/-- The neighbour of `units` on the grid of `10 ^ exponent` that reads back, the nearer one if both
do; of two equally near the upper. -/
def nearestOnGrid (units : Nat) (exponent : Int) : Option Decimal :=
  let (num, den) := onGrid units exponent
  let below : Decimal := ⟨num / den, exponent⟩
  let above : Decimal := ⟨num / den + 1, exponent⟩
  let nearer := if 2 * (num % den) < den then below else above
  let farther := if 2 * (num % den) < den then above else below
  if nearer.readsAs units then some nearer
  else if farther.readsAs units then some farther
  else none

/-- All digits of `units`. -/
def allDigits (units : Nat) : Decimal := ⟨units * Nat.pow 5 1074, -1074⟩

/-- The decimal with the fewest digits that reads back. Seventeen digits are always enough; the
exact value stands behind them. -/
def shortest (units : Nat) : Decimal :=
  let top := magnitude units
  match (List.range 17).findSome? fun (n : Nat) => nearestOnGrid units (top - n) with
  | some d => d
  | none => allDigits units

def Decimal.trim : Nat → Decimal → Decimal
  | 0, d => d
  | fuel + 1, d =>
    if d.coefficient ≠ 0 && d.coefficient % 10 = 0 then
      Decimal.trim fuel ⟨d.coefficient / 10, d.exponent + 1⟩
    else d

def padded (width n : Nat) : List Char :=
  let digits := Nat.toDigits 10 n
  List.replicate (width - digits.length) '0' ++ digits

def Decimal.chars (d : Decimal) : List Char :=
  match d.exponent with
  | .ofNat k => Nat.toDigits 10 (d.coefficient * Nat.pow 10 k)
  | .negSucc k =>
    let scale := Nat.pow 10 (k + 1)
    Nat.toDigits 10 (d.coefficient / scale) ++ '.' :: padded (k + 1) (d.coefficient % scale)

def magnitudeChars (units : Nat) : List Char :=
  if units = 0 then ['0']
  else ((shortest units).trim 1100).chars

def toChars : Number → List Char
  | .nan => ['N', 'a', 'N']
  | .infinite false => ['i', 'n', 'f']
  | .infinite true => ['-', 'i', 'n', 'f']
  | .finite false u => magnitudeChars u
  | .finite true u => '-' :: magnitudeChars u

protected def toString (n : Number) : String := String.ofList n.toChars

instance : ToString Number := ⟨Number.toString⟩

end Pddl.Number
