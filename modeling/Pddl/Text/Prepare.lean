import Pddl.Text.Case

namespace Pddl.Text

/-- One carriage return at the end of a line belongs to the line break. -/
def dropReturn (line : List Char) : List Char :=
  if line.getLast? = some '\r' then line.dropLast else line

/-- The lines of a text without their line breaks; a last line is there only if it holds a
character, and only a line feed takes a carriage return with it. -/
def linesFrom (line : List Char) : List Char → List (List Char)
  | [] => if line.isEmpty then [] else [line.reverse]
  | c :: cs =>
    if c = '\n' then dropReturn line.reverse :: linesFrom [] cs else linesFrom (c :: line) cs

def lines (cs : List Char) : List (List Char) := linesFrom [] cs

/-- Cuts a line at the first semicolon that does not stand between a bracket and the next closing
bracket. -/
def cutComment (inside : Bool) : List Char → List Char
  | [] => []
  | c :: cs =>
    if c = '[' then c :: cutComment true cs
    else if c = ']' then c :: cutComment false cs
    else if c = ';' && !inside then []
    else c :: cutComment inside cs

def prepareLine (line : List Char) : List Char := lower (cutComment false line)

def prepareChars (cs : List Char) : List Char :=
  ['\n'].intercalate ((lines cs).map prepareLine)

def prepare (s : String) : String := String.ofList (prepareChars s.toList)

end Pddl.Text
