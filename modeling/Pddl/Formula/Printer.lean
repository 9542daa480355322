import Pddl.Formula.Basic

namespace Pddl.Formula

mutual

def text : Formula → String
  | .atom a => a.text
  | .not body => "(not " ++ body.text ++ ")"
  | .delete body => "(not " ++ body.text ++ ")"
  | .and terms => "(and " ++ Text.words (texts terms) ++ ")"
  | .or terms => "(or " ++ Text.words (texts terms) ++ ")"
  | .imply l r => "(imply " ++ l.text ++ " " ++ r.text ++ ")"
  | .forAll vs body => "(forall (" ++ Entity.texts vs ++ ") " ++ body.text ++ ")"
  | .thereIs vs body => "(exists (" ++ Entity.texts vs ++ ") " ++ body.text ++ ")"
  | .when c e => "(when " ++ c.text ++ " " ++ e.text ++ ")"
  | .assign u t v => "(" ++ u.text ++ " " ++ t.text ++ " " ++ v.text ++ ")"
  | .probabilistic outcomes => "(probabilistic " ++ Text.words (outcomeTexts outcomes) ++ ")"
  | .comparison r t v => "(" ++ r.text ++ " " ++ t.text ++ " " ++ v.text ++ ")"
  | .equal a b => "(= " ++ a.name ++ " " ++ b.name ++ ")"
  | .different a b => "(Different " ++ a.name ++ " " ++ b.name ++ ")"
  | .timed time body => "(" ++ time.text ++ " " ++ body.text ++ ")"

def texts : List Formula → List String
  | [] => []
  | f :: fs => f.text :: texts fs

def outcomeTexts : List (Number × Formula) → List String
  | [] => []
  | (p, f) :: rest => (p.toString ++ " " ++ f.text) :: outcomeTexts rest

end

theorem texts_eq_map (fs : List Formula) : texts fs = fs.map text := by
  induction fs with
  | nil => simp [texts]
  | cons f fs ih => simp [texts, ih]

end Pddl.Formula
