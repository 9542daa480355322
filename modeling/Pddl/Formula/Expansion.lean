import Pddl.Formula.Variables

namespace Pddl.Formula

/-- `name-n` for the least positive `n` that gives a name not taken. Among one candidate more than
there are names taken one is free. -/
def freshName (taken : List String) (name : String) : String :=
  let candidates := (List.range (taken.length + 1)).map fun n => name ++ "-" ++ toString (n + 1)
  match candidates.find? (!taken.contains ·) with
  | some fresh => fresh
  | none => name

/-- Fresh copies of the variables in order, each paired with its variable, and the names that are
taken afterwards. -/
def freshCopies (taken : List String) : List Entity → List (Entity × Entity) × List String
  | [] => ([], taken)
  | v :: vs =>
    let fresh := freshName taken v.name
    let (copies, taken) := freshCopies (fresh :: taken) vs
    ((v, ⟨fresh, v.type⟩) :: copies, taken)

def forEach (binders : List Entity) (body : Formula) : Formula :=
  binders.foldr (fun v f => .forAll [v] f) body

/-- The expansion of `not a` behind terms that speak about the variables `seen`. The negated atom holds
of all objects that its other variables may stand for; the guards let every choice pass that coincides
with a variable seen. -/
def expandAtom (seen : List Entity) (taken : List String) (a : Application) :
    Formula × List String :=
  let unseen := Sorted.ofList (a.variableArguments.filter (!seen.contains ·))
  let (copies, taken) := freshCopies taken unseen
  let binders := copies.map Prod.snd
  let renamed : Bindings := (copies.map fun (v, fresh) => (v.name, fresh)).reverse
  let guards := binders.flatMap fun v => seen.map fun earlier => Formula.not (.different earlier v)
  (forEach binders (.or (guards ++ [.not (.atom (a.substitute renamed))])), taken)

structure Context where
  seen : List Entity
  taken : List String

/-- The expansion of one term; a term that is not a negation makes its variables known to the terms
behind it. -/
def expandTerm (c : Context) : Formula → Formula × Context
  | .not (.atom a) =>
    let (f, taken) := expandAtom c.seen c.taken a
    (f, { c with taken })
  | .timed time (.not (.atom a)) =>
    let (f, taken) := expandAtom c.seen c.taken a
    (.timed time f, { c with taken })
  | .not body => (.not body, c)
  | .timed time (.not body) => (.timed time (.not body), c)
  | f => (f, { c with seen := Sorted.insertAll f.freeVariables c.seen })

def expandTerms (c : Context) : List Formula → List Formula
  | [] => []
  | f :: fs =>
    let (g, c) := expandTerm c f
    g :: expandTerms c fs

def expandNegations (precondition : Formula) (parameters : List Entity) : List Formula :=
  let taken := (parameters ++ precondition.freeVariables).map Entity.name
  expandTerms ⟨[], taken⟩ precondition.conjuncts

end Pddl.Formula
