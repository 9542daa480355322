import Pddl.Error
import Pddl.Plan.Attempt
import Pddl.Text.Prepare
import Pddl.Tree.Scan

namespace Pddl

structure PlanStep where
  name : String
  parameters : List String
  time : Option Number
  duration : Option Number
  cost : Option Number
  deriving DecidableEq, Repr

inductive Remark where
  | duration
  | cost
  deriving DecidableEq, Repr

namespace PlanStep

open Attempt

def isSpace (c : Char) : Bool := c = ' ' || c = '\t'

def isMargin (c : Char) : Bool := c = ' ' || c = '\t' || c = '\r' || c = '\n'

def readNumber (e : Excerpt) : Attempt Number :=
  match Number.leading e.chars with
  | .absent => .missed e
  | .unfinished => .failed e
  | .present value rest => .done value (e.drop (e.chars.length - rest.length))

def readName (e : Excerpt) : Attempt String :=
  match e.splitWord? with
  | some (word, rest) => .done word.text rest
  | none => .missed e

theorem readName_shortens (e : Excerpt) : (readName e).Shortens e := by
  intro v rest heq
  unfold readName at heq
  split at heq
  · rename_i word rest' hword
    simp only [done.injEq] at heq
    exact heq.2 ▸ Excerpt.length_of_splitWord? hword
  · simp at heq

theorem readNumber_keeps (e : Excerpt) : (readNumber e).Keeps e := by
  intro v rest heq
  unfold readNumber at heq
  split at heq
  · simp at heq
  · simp at heq
  · simp only [done.injEq] at heq
    rw [← heq.2]
    simp [Excerpt.drop]

def readArguments (e : Excerpt) : Attempt (List String) :=
  many (behind (run isSpace) readName) (behind_shortens (run_shortens isSpace) readName_shortens) e

def readBody (e : Excerpt) : Attempt (String × List String) :=
  (readName e).andThen fun name rest =>
    (readArguments rest).andThen fun arguments rest => .done (name, arguments) rest

theorem readBody_shortens (e : Excerpt) : (readBody e).Shortens e :=
  (readName_shortens e).andThen fun _ rest =>
    (many_keeps _ _ rest).andThen fun _ _ => keeps_done (Nat.le_refl _)

def readGroup (e : Excerpt) : Attempt (String × List String) :=
  (char '(' e).andThen fun _ rest =>
    (readBody (rest.dropWhile isSpace)).andThen fun body rest =>
      (char ')' (rest.dropWhile isSpace)).andThen fun _ rest => .done body rest

theorem readGroup_shortens (e : Excerpt) : (readGroup e).Shortens e :=
  (char_shortens '(' e).andThen fun _ rest =>
    (((readBody_shortens _).of_le (length_dropWhile_le isSpace rest)).andThen fun _ rest =>
      (((char_shortens ')' _).of_le (length_dropWhile_le isSpace rest)).andThen fun _ _ =>
        keeps_done (Nat.le_refl _)).keeps).keeps

/-- The time in front of a step with its colon. -/
def readTime (e : Excerpt) : Attempt Number :=
  (readNumber e).andThen fun time rest =>
    (char ':' (rest.dropWhile isSpace)).andThen fun _ rest => .done time (rest.dropWhile isSpace)

theorem readTime_keeps (e : Excerpt) : (readTime e).Keeps e :=
  (readNumber_keeps e).andThen fun _ rest =>
    (((char_shortens ':' _).of_le (length_dropWhile_le isSpace rest)).andThen fun _ rest =>
      keeps_done (length_dropWhile_le isSpace rest)).keeps

def readKey (e : Excerpt) : Attempt Remark :=
  match e.chars with
  | 'd' :: rest => .done .duration ⟨e.start.next 'd', rest⟩
  | 'c' :: rest => .done .cost ⟨e.start.next 'c', rest⟩
  | _ => .missed e

theorem readKey_shortens (e : Excerpt) : (readKey e).Shortens e := by
  intro v rest heq
  unfold readKey at heq
  split at heq
  · rename_i hchars
    simp only [done.injEq] at heq
    simp [← heq.2, hchars]
  · rename_i hchars
    simp only [done.injEq] at heq
    simp [← heq.2, hchars]
  · simp at heq

def readRemark (e : Excerpt) : Attempt (Remark × Number) :=
  (readKey (e.dropWhile isSpace)).andThen fun key rest =>
    (char ':' rest).andThen fun _ rest =>
      (readNumber rest).andThen fun value rest => .done (key, value) rest

theorem readRemark_shortens (e : Excerpt) : (readRemark e).Shortens e :=
  ((readKey_shortens _).of_le (length_dropWhile_le isSpace e)).andThen fun _ rest =>
    ((char_shortens ':' rest).andThen fun _ rest =>
      (readNumber_keeps rest).andThen fun _ _ => keeps_done (Nat.le_refl _)).keeps

def readSemicolon (e : Excerpt) : Attempt Unit := char ';' (e.dropWhile isSpace)

theorem readSemicolon_shortens (e : Excerpt) : (readSemicolon e).Shortens e :=
  (char_shortens ';' _).of_le (length_dropWhile_le isSpace e)

def readRemarks (e : Excerpt) : Attempt (List (Remark × Number)) :=
  (char '[' (e.dropWhile isSpace)).andThen fun _ rest =>
    (manySeparated readSemicolon readRemark readSemicolon_shortens readRemark_shortens
        rest).andThen fun remarks rest =>
      (char ']' (rest.dropWhile isSpace)).andThen fun _ rest => .done remarks rest

theorem readRemarks_keeps (e : Excerpt) : (readRemarks e).Keeps e :=
  (((char_shortens '[' _).of_le (length_dropWhile_le isSpace e)).andThen fun _ rest =>
    (manySeparated_keeps _ _ _ _ rest).andThen fun _ rest =>
      (((char_shortens ']' _).of_le (length_dropWhile_le isSpace rest)).andThen fun _ _ =>
        keeps_done (Nat.le_refl _)).keeps).keeps

/-- The value of the last remark of a kind. -/
def valueOf (key : Remark) (remarks : List (Remark × Number)) : Option Number :=
  remarks.reverse.lookup key

def assemble (time : Option Number) (body : String × List String)
    (remarks : Option (List (Remark × Number))) : PlanStep :=
  let remarks := remarks.getD []
  ⟨body.1, body.2, time, valueOf .duration remarks, valueOf .cost remarks⟩

/-- A step at the front of a text, such as `0: (move a b) [d:1.00; c:2.00]`; the time, the parentheses
and the remarks may be missing. -/
def readStep (e : Excerpt) : Attempt PlanStep :=
  ((readTime e).optional e).andThen fun time rest =>
    ((readGroup rest).orElse (readBody rest)).andThen fun body rest =>
      ((readRemarks rest).optional rest).andThen fun remarks rest =>
        .done (assemble time body remarks) rest

theorem readStep_shortens (e : Excerpt) : (readStep e).Shortens e :=
  (readTime_keeps e).optional.andThen_shortens fun _ rest =>
    ((readGroup_shortens rest).orElse (readBody_shortens rest)).andThen fun _ rest =>
      (readRemarks_keeps rest).optional.andThen fun _ _ => keeps_done (Nat.le_refl _)

def readFramed (e : Excerpt) : Attempt PlanStep :=
  (readStep (e.dropWhile isMargin)).andThen fun step rest => .done step (rest.dropWhile isMargin)

end PlanStep

def Excerpt.firstLine (e : Excerpt) : String :=
  match Text.lines e.chars with
  | [] => ""
  | line :: _ => String.ofList line

/-- The value of an attempt that leaves nothing of the text; the error shows the line where it
stopped. -/
def Attempt.finish {α : Type} (a : Attempt α) : Except Error α :=
  match a with
  | .done v rest =>
    if rest.chars.isEmpty then .ok v else .error (rest.fault (.unrecognized rest.firstLine))
  | .missed here => .error (here.fault (.unrecognized here.firstLine))
  | .failed here => .error (here.fault (.unrecognized here.firstLine))

def PlanStep.ofLine (line : String) : Except Error PlanStep :=
  (readFramed (.ofString (Text.prepare line))).finish

end Pddl
