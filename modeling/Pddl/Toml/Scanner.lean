
namespace Pddl.Toml

/-- A reader that either reads something at the front or leaves everything. -/
abbrev Scanner := StateT (List Char) Option

namespace Scanner

variable {α : Type}

def peek : Scanner (Option Char) := fun cs => some (cs.head?, cs)

/-- A character that satisfies `p`. -/
def satisfy (p : Char → Bool) : Scanner Char
  | [] => none
  | c :: cs => if p c then some (c, cs) else none

def char (c : Char) : Scanner Unit := do
  let _ ← satisfy (· = c)

def chars : List Char → Scanner Unit
  | [] => pure ()
  | c :: cs => do
    char c
    chars cs

def takeWhile (p : Char → Bool) : Scanner (List Char) := fun cs =>
  some (cs.takeWhile p, cs.dropWhile p)

def done : Scanner Unit
  | [] => some ((), [])
  | _ => none

/-- Readings in a row, up to the first that fails or reads nothing. -/
def manyFrom (s : Scanner α) (cs : List Char) : List α × List Char :=
  match s cs with
  | none => ([], cs)
  | some (a, rest) =>
    if _h : rest.length < cs.length then
      let (as, rest) := manyFrom s rest
      (a :: as, rest)
    else ([], cs)
termination_by cs.length

def many (s : Scanner α) : Scanner (List α) := fun cs => some (manyFrom s cs)

def separated (separator : Scanner Unit) (s : Scanner α) : Scanner (List α) := do
  let first ← s
  let rest ← many (do separator; s)
  return first :: rest

def times (n : Nat) (s : Scanner α) : Scanner (List α) :=
  match n with
  | 0 => pure []
  | n + 1 => do
    let a ← s
    let as ← times n s
    return a :: as

def check (b : Bool) : Scanner Unit := if b then pure () else failure

def ofOption (o : Option α) : Scanner α := fun cs => o.map (·, cs)

end Scanner

end Pddl.Toml
