
namespace Pddl

/-- A place in a text: the bytes before it, and its line and column, both counted from one;
columns count characters. -/
structure Position where
  offset : Nat
  line : Nat
  column : Nat
  deriving DecidableEq, Repr

namespace Position

def origin : Position := ⟨0, 1, 1⟩

/-- The place behind one character. -/
def next (p : Position) (c : Char) : Position :=
  if c = '\n' then ⟨p.offset + c.utf8Size, p.line + 1, 1⟩
  else ⟨p.offset + c.utf8Size, p.line, p.column + 1⟩

def skip (p : Position) (cs : List Char) : Position :=
  cs.foldl next p

@[simp] theorem skip_nil (p : Position) : p.skip [] = p := rfl

@[simp] theorem skip_cons (p : Position) (c : Char) (cs : List Char) :
    p.skip (c :: cs) = (p.next c).skip cs := rfl

end Position

/-- Consecutive characters of a text together with the place where they begin. -/
structure Excerpt where
  start : Position
  chars : List Char
  deriving DecidableEq, Repr

namespace Excerpt

def ofString (s : String) : Excerpt := ⟨.origin, s.toList⟩

def text (e : Excerpt) : String := String.ofList e.chars

/-- What is left behind the first `n` characters. -/
def drop (e : Excerpt) (n : Nat) : Excerpt :=
  ⟨e.start.skip (e.chars.take n), e.chars.drop n⟩

/-- The longest run of characters at the front that all satisfy `p`, and what follows it. -/
def spanWhile (e : Excerpt) (p : Char → Bool) : Excerpt × Excerpt :=
  let run := e.chars.takeWhile p
  (⟨e.start, run⟩, ⟨e.start.skip run, e.chars.dropWhile p⟩)

def dropWhile (e : Excerpt) (p : Char → Bool) : Excerpt :=
  (e.spanWhile p).2

/-- Drops characters until `n` bytes are gone, or everything if there are fewer. -/
def dropBytesFrom (start : Position) : List Char → Nat → Excerpt
  | [], _ => ⟨start, []⟩
  | c :: cs, n => if n = 0 then ⟨start, c :: cs⟩ else dropBytesFrom (start.next c) cs (n - c.utf8Size)

def dropBytes (e : Excerpt) (n : Nat) : Excerpt :=
  dropBytesFrom e.start e.chars n

@[simp] theorem text_ofString (s : String) : (ofString s).text = s := by
  simp [ofString, text]

end Excerpt

end Pddl
