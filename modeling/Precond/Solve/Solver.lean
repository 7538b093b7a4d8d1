import Precond.Constraint.Formula
import Precond.Solve.Search

/-! Checking constraints. A solver keeps formulas that every model has to satisfy. What a check is
about is kept too, but under a guard of its own that only this check makes true, so that it does not
bind later checks. -/

namespace Precond

inductive Verdict
  | proved | refuted | sat | unsat | unknown
  deriving DecidableEq, Repr, Inhabited

def Verdict.toText : Verdict → String
  | proved => "proved"
  | refuted => "refuted"
  | sat => "sat"
  | unsat => "unsat"
  | unknown => "unknown"

structure Solver where
  asserted : List Guarded
  /-- The formulas kept before each push that has not been undone, the latest first. -/
  saved : List (List Guarded)
  /-- The number of the next guard. -/
  next : Nat
  /-- What the last check has found. -/
  found : Option Found

def Solver.start : Solver := ⟨[], [], 0, none⟩

abbrev Solving := EStateM Fault Solver

namespace Solver

def assert (g : Guarded) : Solving Unit := modify fun s => { s with asserted := s.asserted ++ [g] }

def push : Solving Unit := modify fun s => { s with saved := s.asserted :: s.saved }

/-- Go back to the formulas of the latest push. -/
def pop : Solving Unit := do
  match (← get).saved with
  | [] => throw .illSorted
  | asserted :: saved => modify fun s => { s with asserted, saved }

def ofExcept {α} : Except Fault α → Solving α
  | .ok x => return x
  | .error f => throw f

def newGuard : Solving Nat := modifyGet fun s => (s.next, { s with next := s.next + 1 })

def verdictOf (refute : Bool) : Outcome → Verdict
  | .sat _ => if refute then .refuted else .sat
  | .unsat => if refute then .proved else .unsat
  | .unknown _ => .unknown

def foundIn : Outcome → Option Found
  | .sat found => some found
  | _ => none

/-- Search for a model of a constraint or, to refute it, of its negation. -/
def check (how : Search) (c : Constr) (refute : Bool) : Solving (Verdict × Outcome) := do
  let formula ← ofExcept c.toFormula
  let guard ← newGuard
  assert ⟨some guard, if refute then formula.not else formula⟩
  let outcome := how.run (← get).asserted guard
  modify fun s => { s with found := foundIn outcome }
  return (verdictOf refute outcome, outcome)

/-- Rule out the value that a term has in the model found last, and check again. -/
def exclude (how : Search) (t : SomeTerm) (c : Constr) (refute : Bool) :
    Solving (Verdict × Outcome) := do
  match (← get).found with
  | none => throw .illSorted
  | some found =>
    assert ⟨none, Term.ne t.2 (.ofValue t.1 (t.2.eval found.model))⟩
    check how c refute

end Solver

end Precond
