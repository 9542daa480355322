import Pddl.Toml.Literal
import Pddl.Toml.Value

namespace Pddl.Toml

open Scanner

def arrayOf {α : Type} (item : Scanner α) : Scanner (List α) := do
  char '['
  padding
  let items ← separated (char ',') (do padding; let v ← item; padding; return v) <|> pure []
  let _ ← optional (do check (!items.isEmpty); char ','; padding)
  char ']'
  return items

/-- A key and a value with an equals sign between them. -/
def keyValue {α : Type} (item : Scanner α) : Scanner (List String × α) := do
  let k ← key
  char '='
  spaces
  let v ← item
  return (k, v)

def inlineTable (item : Scanner Value) : Scanner Entries := do
  char '\x7b'
  spaces
  let pairs ←
    separated (char ',') (do spaces; let p ← keyValue item; spaces; return p) <|> pure []
  char '\x7d'
  ofOption (pairs.foldlM (fun entries (k, v) => Entries.insert k v .inline entries) [])

/-- A value in which at most `depth` arrays and inline tables stand inside each other. -/
def value (depth : Nat) : Scanner Value := do
  match ← peek with
  | some '"' => return .string (← string)
  | some '\'' => return .string (← string)
  | some 't' => do
    chars ['t', 'r', 'u', 'e']
    return .boolean true
  | some 'f' => do
    chars ['f', 'a', 'l', 's', 'e']
    return .boolean false
  | some '[' =>
    match depth with
    | 0 => failure
    | depth + 1 => return .array (← arrayOf (value depth))
  | some '\x7b' =>
    match depth with
    | 0 => failure
    | depth + 1 => return .table .inline (← inlineTable (value depth))
  | _ => do
    scalar
    return .scalar

inductive Line where
  | blank
  | keyValue (key : List String) (value : Value)
  | table (key : List String)
  | element (key : List String)

def statement : Scanner Line :=
  (do
    chars ['[', '[']
    let k ← key
    chars [']', ']']
    return .element k) <|>
  (do
    char '['
    let k ← key
    char ']'
    return .table k) <|>
  (do
    let (k, v) ← keyValue (value (nestingLimit - 1))
    return .keyValue k v) <|>
  pure .blank

def line : Scanner Line := do
  spaces
  let l ← statement
  spaces
  let _ ← optional comment
  newline <|> done
  return l

/-- Takes a line into account, behind lines whose last header named the table at `path`. -/
def Entries.addLine (path : List String) (entries : Entries) :
    Line → Option (List String × Entries)
  | .blank => some (path, entries)
  | .keyValue k v => do
    let entries ← entries.insertBelow path k v
    return (path, entries)
  | .table k => do
    let entries ← entries.openTable k
    return (k, entries)
  | .element k => do
    let entries ← entries.openElement k
    return (k, entries)

def Entries.addLines (path : List String) (entries : Entries) : List Line → Option Entries
  | [] => some entries
  | l :: ls => do
    let (path, entries) ← entries.addLine path l
    entries.addLines path ls

def dropMark : List Char → List Char
  | [] => []
  | c :: cs => if c = '\uFEFF' then cs else c :: cs

def read? (text : String) : Option Entries := do
  let (lines, rest) := manyFrom line (dropMark text.toList)
  if rest.isEmpty then Entries.addLines [] [] lines else none

end Pddl.Toml
