import Pddl.Number.Basic

namespace Pddl.Number

/-- The number nearest to `coefficient * 10 ^ exponent`. Exponents so far out that the answer is
infinity or zero are settled without computing the power. -/
def ofDecimal (negative : Bool) (coefficient : Nat) (exponent : Int) : Number :=
  if coefficient = 0 then .finite negative 0
  else match exponent with
    | .ofNat k =>
      if 310 < k then .infinite negative
      else ofUnits negative (coefficient * Nat.pow 10 k * unitsPerOne) 1
    | .negSucc k =>
      if coefficient.log2 + 1100 < k then .finite negative 0
      else ofUnits negative (coefficient * unitsPerOne) (Nat.pow 10 (k + 1))

inductive Leading where
  /-- No number begins here. -/
  | absent
  /-- A number begins here, and its exponent mark has no digits behind it. -/
  | unfinished
  | present (value : Number) (rest : List Char)
  deriving DecidableEq, Repr

def takeDigits (cs : List Char) : List Char × List Char :=
  (cs.takeWhile Char.isDigit, cs.dropWhile Char.isDigit)

/-- An optional sign; the flag says that it is a minus. -/
def takeSign : List Char → Bool × List Char
  | '-' :: cs => (true, cs)
  | '+' :: cs => (false, cs)
  | cs => (false, cs)

/-- The digits before and behind the point: there are some on one side at least, and a point
without digits before it needs digits behind it. -/
def takeMantissa (cs : List Char) : Option (List Char × List Char × List Char) :=
  match takeDigits cs with
  | ([], '.' :: rest) =>
    match takeDigits rest with
    | ([], _) => none
    | (fraction, rest) => some ([], fraction, rest)
  | ([], _) => none
  | (whole, '.' :: rest) =>
    let (fraction, rest) := takeDigits rest
    some (whole, fraction, rest)
  | (whole, rest) => some (whole, [], rest)

/-- The exponent at the front, zero if there is none; `none` when the mark has no digits. -/
def takeExponent (cs : List Char) : Option (Int × List Char) :=
  match cs with
  | [] => some (0, [])
  | c :: rest =>
    if c = 'e' || c = 'E' then
      let (negative, rest) := takeSign rest
      match takeDigits rest with
      | ([], _) => none
      | (digits, rest) =>
        let n := Nat.ofDigitChars 10 digits 0
        some (if negative then -(n : Int) else n, rest)
    else some (0, c :: rest)

def beginsWith (word : List Char) (cs : List Char) : Bool :=
  (cs.take word.length).map Char.toLower = word

/-- Reads the longest number at the front: digits with an optional sign, point and exponent, or
`nan` or `inf` without a sign. -/
def leading (cs : List Char) : Leading :=
  let (negative, unsigned) := takeSign cs
  match takeMantissa unsigned with
  | some (whole, fraction, rest) =>
    match takeExponent rest with
    | none => .unfinished
    | some (exponent, rest) =>
      let coefficient := Nat.ofDigitChars 10 (whole ++ fraction) 0
      .present (ofDecimal negative coefficient (exponent - fraction.length)) rest
  | none =>
    if beginsWith ['n', 'a', 'n'] cs then .present .nan (cs.drop 3)
    else if beginsWith ['i', 'n', 'f'] cs then .present (.infinite false) (cs.drop 3)
    else .absent

def ofChars? (cs : List Char) : Option Number :=
  match leading cs with
  | .present value [] => some value
  | _ => none

end Pddl.Number
