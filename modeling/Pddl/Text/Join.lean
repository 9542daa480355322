
namespace Pddl.Text

def joinWith (sep : String) : List String → String
  | [] => ""
  | [s] => s
  | s :: t :: rest => s ++ sep ++ joinWith sep (t :: rest)

def words (ss : List String) : String := joinWith " " ss

/-- The texts, each behind a blank. -/
def trailing : List String → String
  | [] => ""
  | s :: rest => " " ++ s ++ trailing rest

def concat : List String → String
  | [] => ""
  | s :: rest => s ++ concat rest

end Pddl.Text
