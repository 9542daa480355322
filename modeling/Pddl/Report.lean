import Pddl.Error

namespace Pddl

inductive Warning where
  | skippedDomainSection (keyword : String) (line : Nat)
  | skippedProblemSection (keyword : String) (line : Nat)
  | adHocType (type : String) (line : Nat)
  | actionsDeclared
  deriving DecidableEq, Repr

def Warning.message : Warning → String
  | .skippedDomainSection _ _ => "skipping unsupported domain section"
  | .skippedProblemSection _ _ => "skipping unsupported problem section"
  | .adHocType _ _ => "type not declared, using it as an ad hoc type"
  | .actionsDeclared =>
    "the `(:actions ...)` section is used instead of synthesizing action predicates from operators"

/-- The warnings raised, in order, with the outcome; an error keeps the warnings before it. -/
structure Report (α : Type) where
  warnings : List Warning
  result : Except Error α
  deriving Repr

namespace Report

protected def pure {α : Type} (a : α) : Report α := ⟨[], .ok a⟩

protected def bind {α β : Type} (r : Report α) (f : α → Report β) : Report β :=
  match r.result with
  | .error e => ⟨r.warnings, .error e⟩
  | .ok a => ⟨r.warnings ++ (f a).warnings, (f a).result⟩

instance : Monad Report where
  pure := Report.pure
  bind := Report.bind

def warn (w : Warning) : Report Unit := ⟨[w], .ok ()⟩

def ofExcept {α : Type} (x : Except Error α) : Report α := ⟨[], x⟩

instance : MonadLift (Except Error) Report := ⟨ofExcept⟩

@[simp] theorem result_pure {α : Type} (a : α) : (pure a : Report α).result = .ok a := rfl

@[simp] theorem warnings_pure {α : Type} (a : α) : (pure a : Report α).warnings = [] := rfl

@[simp] theorem result_ofExcept {α : Type} (x : Except Error α) : (ofExcept x).result = x := rfl

@[simp] theorem result_bind {α β : Type} (r : Report α) (f : α → Report β) :
    (r >>= f).result = r.result >>= fun a => (f a).result := by
  cases r with
  | mk ws x => cases x <;> rfl

end Report

end Pddl
