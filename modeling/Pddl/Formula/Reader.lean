import Pddl.Formula.Outcomes
import Pddl.Symbols
import Pddl.TypedList

namespace Pddl

def readNumber (word : Excerpt) : Except Error Number :=
  match Number.ofChars? word.chars with
  | some n => .ok n
  | none => .error (word.fault (.expectedFound "a number" word.text))

def Scope.resolve (s : Scope) (t : Tree) : Except Error Entity := do
  let word ← t.expectWord "an argument"
  match s.find? word.text with
  | some e => .ok e
  | none => .error (.unbound word.text)

def Scope.resolveAll (s : Scope) : List Tree → Except Error (List Entity)
  | [] => .ok []
  | t :: ts => do
    let e ← s.resolve t
    let es ← s.resolveAll ts
    return e :: es

/-- The application of a signature to the arguments, which are counted before they are resolved. -/
def Signature.read (signature : Signature) (types : Types) (scope : Scope) (args : List Tree) :
    Except Error Application :=
  if signature.arity ≠ args.length then
    .error (.arity signature.name signature.arity args.length)
  else do
    let arguments ← scope.resolveAll args
    signature.apply types arguments

namespace Symbols

variable (symbols : Symbols) (scope : Scope)

def readAtom (head : Excerpt) (args : List Tree) : Except Error Application :=
  match symbols.predicate? head.text with
  | some signature => signature.read symbols.types scope args
  | none => .error (.undefined .predicate head.text)

def readFunction (head : Excerpt) (args : List Tree) : Except Error Application :=
  match symbols.function? head.text with
  | some signature => signature.read symbols.types scope args
  | none => .error (.undefined .function head.text)

/-- A function term, which is a list headed by the name of the function. -/
def readTerm : Tree → Except Error Application
  | .word e => .error (e.fault (.expectedFound "a function term" e.text))
  | .broken _ err => .error err
  | .list e [] => .error (e.fault (.expected "a function term"))
  | .list _ (head :: args) => do
    let head ← head.expectWord "a function name"
    symbols.readFunction scope head args

/-- Arithmetic over operands: two or more from left to right, or one that is negated. -/
def combine (head : Excerpt) (operation : Arithmetic) : List Numeric → Except Error Numeric
  | [] => .error (head.fault (.tooFewOperands operation.text))
  | [x] =>
    if operation = .minus then .ok (.binary operation (.number .zero) x)
    else .error (head.fault (.tooFewOperands operation.text))
  | x :: y :: rest => .ok ((y :: rest).foldl (.binary operation) x)

mutual

def readNumeric : Tree → Except Error Numeric
  | .word e => do
    let value ← readNumber e
    return .number value
  | .broken _ err => .error err
  | .list e [] => .error (e.fault (.empty "numeric expression"))
  | .list _ (head :: args) => do
    let head ← head.expectWord "a function or arithmetic operator"
    match Arithmetic.ofText? head.text with
    | none => do
      let term ← symbols.readFunction scope head args
      return .function term
    | some operation => do
      let operands ← readNumerics args
      combine head operation operands

def readNumerics : List Tree → Except Error (List Numeric)
  | [] => .ok []
  | t :: ts => do
    let x ← readNumeric t
    let xs ← readNumerics ts
    return x :: xs

end

end Symbols

/-- The kinds of formulas by their first word; every other word is a predicate. -/
inductive Keyword where
  | and
  | or
  | forAll
  | thereIs
  | not
  | imply
  | when
  | probabilistic
  | timePoint
  | timeSpan
  | different
  | relation (relation : Relation)
  | update (update : Update)
  | predicate
  deriving DecidableEq, Repr

def Keyword.ofText (s : String) : Keyword :=
  match s with
  | "and" => .and
  | "or" => .or
  | "forall" => .forAll
  | "exists" => .thereIs
  | "not" => .not
  | "imply" => .imply
  | "when" => .when
  | "probabilistic" => .probabilistic
  | "at" => .timePoint
  | "over" => .timeSpan
  | "different" => .different
  | s =>
    match Relation.ofText? s with
    | some r => .relation r
    | none =>
      match Update.ofText? s with
      | some u => .update u
      | none => .predicate

def wrongCount {α : Type} (keyword : Excerpt) (needed given : Nat) : Except Error α :=
  .error (keyword.fault (.argumentCount keyword.text needed given))

def Mode.require (mode allowed : Mode) (keyword : Excerpt) : Except Error Unit :=
  if mode = allowed then .ok () else .error (keyword.fault (.wrongMode keyword.text allowed))

/-- The time that a qualifier names behind `at` or `over`. -/
def Time.ofWords? (keyword : Keyword) (qualifier : Tree) : Option Time :=
  match keyword with
  | .timePoint =>
    if qualifier.isWord "start" then some .atStart
    else if qualifier.isWord "end" then some .atEnd
    else none
  | .timeSpan => if qualifier.isWord "all" then some .overAll else none
  | _ => none

/-- The greatest sum of probabilities that still counts as one. -/
def greatestTotal : Number := Number.one.add (.ofDecimal false 1 (-6))

def readProbability (t : Tree) : Except Error Number := do
  let word ← t.expectWord "a probability"
  let p ← readNumber word
  if Number.zero.le p && p.le .one then .ok p else .error (word.fault (.improbable p))

def Scope.readDifferent (scope : Scope) (keyword : Excerpt) (args : List Tree) :
    Except Error Formula :=
  match args with
  | [left, right] => do
    let a ← scope.resolve left
    let b ← scope.resolve right
    return .different a b
  | args => wrongCount keyword 2 args.length

namespace Symbols

variable (symbols : Symbols)

def readRelation (scope : Scope) (keyword : Excerpt) (relation : Relation) (args : List Tree) :
    Except Error Formula :=
  match args with
  | [left, right] =>
    if left.isList then do
      let term ← symbols.readTerm scope left
      let value ← symbols.readNumeric scope right
      return .comparison relation term value
    else if relation = .equal && !right.isList then do
      let a ← scope.resolve left
      let b ← scope.resolve right
      return .equal a b
    else
      .error (left.fault (.expected ("a function term on the left of `" ++ relation.text ++ "`")))
  | args => wrongCount keyword 2 args.length

def readUpdate (scope : Scope) (keyword : Excerpt) (update : Update) (args : List Tree) :
    Except Error Formula :=
  match args with
  | [target, value] => do
    let target ← symbols.readTerm scope target
    let value ← symbols.readNumeric scope value
    return .assign update target value
  | args => wrongCount keyword 2 args.length

mutual

/-- The formula of a list; `what` names what a word stands in the place of. -/
def readFormula (what : String) (scope : Scope) (mode : Mode) : Tree → Except Error Formula
  | .word e => .error (e.fault (.expectedFound what e.text))
  | .broken _ err => .error err
  | .list _ [] => .ok .trivial
  | .list _ (head :: args) => do
    let keyword ← head.expectWord "a keyword or predicate name"
    let kind := Keyword.ofText keyword.text
    match kind with
    | .and => do
      let terms ← readFormulas scope mode args
      return .and terms
    | .or => do
      let terms ← readFormulas scope mode args
      return .or terms
    | .forAll => readQuantified keyword .forAll scope mode args
    | .thereIs => readQuantified keyword .thereIs scope mode args
    | .not =>
      match args with
      | [inner] => do
        let body ← readFormula "a formula" scope mode inner
        match mode with
        | .condition => return .not body
        | .effect => return .delete body
      | args => wrongCount keyword 1 args.length
    | .imply => do
      mode.require .condition keyword
      match args with
      | [left, right] => do
        let l ← readFormula "a formula" scope mode left
        let r ← readFormula "a formula" scope mode right
        return .imply l r
      | args => wrongCount keyword 2 args.length
    | .when => do
      mode.require .effect keyword
      match args with
      | [condition, effect] => do
        let c ← readFormula "a condition" scope .condition condition
        let e ← readFormula "an effect" scope .effect effect
        return .when c e
      | args => wrongCount keyword 2 args.length
    | .probabilistic => do
      mode.require .effect keyword
      if args.length % 2 ≠ 0 then .error (keyword.fault .unpairedOutcomes)
      else do
        let outcomes ← readOutcomes scope args
        let total := Formula.totalProbability outcomes
        if greatestTotal.lt total then .error (keyword.fault (.overfull total))
        else return .probabilistic outcomes
    | .timePoint => readTimed keyword kind scope mode args
    | .timeSpan => readTimed keyword kind scope mode args
    | .different =>
      if (symbols.predicate? keyword.text).isNone then scope.readDifferent keyword args
      else do
        let atom ← symbols.readAtom scope keyword args
        return .atom atom
    | .relation relation => symbols.readRelation scope keyword relation args
    | .update update => do
      mode.require .effect keyword
      symbols.readUpdate scope keyword update args
    | .predicate => do
      let atom ← symbols.readAtom scope keyword args
      return .atom atom

def readFormulas (scope : Scope) (mode : Mode) : List Tree → Except Error (List Formula)
  | [] => .ok []
  | t :: ts => do
    let f ← readFormula "a formula" scope mode t
    let fs ← readFormulas scope mode ts
    return f :: fs

/-- A quantified formula; without variables the body stands for itself. -/
def readQuantified (keyword : Excerpt) (quantifier : List Entity → Formula → Formula)
    (scope : Scope) (mode : Mode) : List Tree → Except Error Formula
  | [list, body] => do
    let trees ← list.expectItems "a variable list"
    let binders ← symbols.types.declaredEntities trees
    let _ ← body.expectList "a formula"
    if binders.isEmpty then readFormula "a formula" scope mode body
    else do
      let inner ← scope.bind binders
      let f ← readFormula "a formula" inner mode body
      return quantifier binders f
  | args => wrongCount keyword 2 args.length

/-- A formula under a time qualifier, or an atom whose predicate is the keyword. -/
def readTimed (keyword : Excerpt) (kind : Keyword) (scope : Scope) (mode : Mode) :
    List Tree → Except Error Formula
  | [qualifier, body] =>
    match Time.ofWords? kind qualifier, body.isList with
    | some time, true => do
      let f ← readFormula "a formula" scope mode body
      return .timed time f
    | _, _ => do
      let atom ← symbols.readAtom scope keyword [qualifier, body]
      return .atom atom
  | args => do
    let atom ← symbols.readAtom scope keyword args
    return .atom atom

def readOutcomes (scope : Scope) : List Tree → Except Error (List (Number × Formula))
  | [] => .ok []
  | [_] => .ok []
  | probability :: outcome :: rest => do
    let p ← readProbability probability
    let f ← readFormula "an outcome" scope .effect outcome
    let others ← readOutcomes scope rest
    return (p, f) :: others

end

end Symbols

end Pddl
