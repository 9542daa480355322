
namespace Pddl.Toml

/-- How a table came about, which decides what may be added to it. -/
inductive Origin where
  /-- By a header of its own. -/
  | header
  /-- By the header of a table inside it. -/
  | implied
  /-- By a dotted key. -/
  | dotted
  /-- Inline; nothing may be added. -/
  | inline
  deriving DecidableEq, Repr

inductive Value where
  | boolean (value : Bool)
  | string (value : String)
  | scalar
  | array (items : List Value)
  | table (origin : Origin) (entries : List (String × Value))
  | tables (tables : List (List (String × Value)))

abbrev Entries := List (String × Value)

namespace Entries

def set (k : String) (v : Value) : Entries → Entries
  | [] => [(k, v)]
  | (l, w) :: rest => if l = k then (k, v) :: rest else (l, w) :: set k v rest

/-- Applies `f` to the table at a path below a table of the given origin. Tables that are missing on
the way are created. In an array of tables the last one is meant. A dotted key does not lead into a
table that has a header. -/
def update (byKey : Bool) (f : Origin → Entries → Option Entries) :
    List String → Origin → Entries → Option Entries
  | [], origin, entries => f origin entries
  | k :: path, _, entries =>
    match entries.lookup k with
    | none => do
      let origin := if byKey then .dotted else .implied
      let inner ← update byKey f path origin []
      return entries ++ [(k, .table origin inner)]
    | some (.table .inline _) => none
    | some (.table origin inner) =>
      if byKey && origin = .header then none
      else do
        let inner ← update byKey f path origin inner
        return set k (.table origin inner) entries
    | some (.tables tables) =>
      match tables.getLast? with
      | none => none
      | some last => do
        let last ← update byKey f path .header last
        return set k (.tables (tables.dropLast ++ [last])) entries
    | some _ => none

/-- Adds a value under a new key of a table. A dotted key adds only to a table that dotted keys have
made. -/
def add (isDotted : Bool) (k : String) (v : Value) (origin : Origin) (entries : Entries) :
    Option Entries :=
  if isDotted && origin ≠ .dotted then none
  else if (entries.lookup k).isSome then none
  else some (entries ++ [(k, v)])

def insert (key : List String) (v : Value) (origin : Origin) (entries : Entries) :
    Option Entries :=
  match key.getLast? with
  | none => none
  | some k => update true (add (1 < key.length) k v) key.dropLast origin entries

/-- Opens the table of a header: a new one, or one that a header inside it has implied. -/
def openTable (key : List String) (entries : Entries) : Option Entries :=
  match key.getLast? with
  | none => none
  | some k =>
    update false (fun _ es =>
      match es.lookup k with
      | none => some (es ++ [(k, .table .header [])])
      | some (.table .implied inner) => some (set k (.table .header inner) es)
      | some _ => none) key.dropLast .header entries

/-- Opens a further table of an array of tables. -/
def openElement (key : List String) (entries : Entries) : Option Entries :=
  match key.getLast? with
  | none => none
  | some k =>
    update false (fun _ es =>
      match es.lookup k with
      | none => some (es ++ [(k, .tables [[]])])
      | some (.tables tables) => some (set k (.tables (tables ++ [[]])) es)
      | some _ => none) key.dropLast .header entries

def insertBelow (path key : List String) (v : Value) (entries : Entries) : Option Entries :=
  update false (insert key v) path .header entries

end Entries

end Pddl.Toml
