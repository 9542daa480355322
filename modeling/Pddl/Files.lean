import Pddl.Error

namespace Pddl

/-- Names with contents; of two entries for a name the first counts. -/
structure Files where
  entries : List (String × ByteArray)

namespace Files

def empty : Files := ⟨[]⟩

def components (path : String) : List String := go [] path.toList
where
  go (current : List Char) : List Char → List String
    | [] => [String.ofList current.reverse]
    | c :: cs =>
      if c = '/' then String.ofList current.reverse :: go [] cs else go (c :: current) cs

def isFileName (name : String) : Bool :=
  name ≠ "" && name ≠ "." && name ≠ ".." && name.utf8ByteSize ≤ 255 &&
    !name.toList.contains '\x00'

/-- The file that a path leads to; a path may begin by naming the directory itself. -/
def nameOf? (path : String) : Option String :=
  match (components path).reverse with
  | [] => none
  | name :: above =>
    let isBelow := path.toList.head? ≠ some '/' && above.all fun c => c = "" || c = "."
    if isFileName name && isBelow then some name else none

def put (f : Files) (name : String) (content : ByteArray) : Files :=
  ⟨(name, content) :: f.entries⟩

def read (f : Files) (path : String) : Except Error String :=
  match nameOf? path >>= (f.entries.lookup ·) >>= String.fromUTF8? with
  | some text => .ok text
  | none => .error (.inaccessible path)

def write (f : Files) (path : String) (text : String) : Except Error Files :=
  match nameOf? path with
  | some name => .ok (f.put name text.toUTF8)
  | none => .error (.inaccessible path)

end Files

end Pddl
