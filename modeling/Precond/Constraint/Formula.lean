import Precond.Constraint.Basic
import Std.Data.HashMap

/-! The formula of a constraint. The formula of each node is built once and kept by the node's
number; substitutions are carried out on the formulas of their bodies. -/

namespace Precond

/-- The conjunction of formulas; of a single one the formula itself. -/
def Term.conj : List (Term .bool) → Term .bool
  | [] => truth true
  | [p] => p
  | ps => and ps

/-- The pairs of a substitution, each of which must have one sort. -/
def Swap.ofPairs : List (SomeTerm × SomeTerm) → Except Fault (List Swap)
  | [] => .ok []
  | p :: ps =>
    match Swap.ofPair? p with
    | some w => do return w :: (← ofPairs ps)
    | none => .error .illSorted

/-- The formula under a substitution. -/
def Term.under (t : Term .bool) (pairs : List (SomeTerm × SomeTerm)) : Except Fault (Term .bool) :=
  return t.replace (← Swap.ofPairs pairs)

namespace Constr

/-- The formulas of the nodes met so far. -/
abbrev Memo := Std.HashMap Nat (Term .bool)

abbrev Memoized (α : Type) := StateT Memo (Except Fault) α

/-- The formula kept for a node, or else a new one, which is kept from now on. -/
def remember (id : Nat) (make : Memoized (Term .bool)) : Memoized (Term .bool) := do
  match (← get)[id]? with
  | some t => return t
  | none =>
    let t ← make
    modify (·.insert id t)
    return t

mutual

/-- The formula of a node, kept for the next time. -/
def formula : Constr → Memoized (Term .bool)
  | goal id _ value _ => remember id (return value)
  | clause id hyps goals => remember id do
    let hs ← formulas hyps
    let gs ← formulas goals
    return if hs.isEmpty then Term.conj gs else (Term.conj hs).implies (Term.conj gs)
  | branch id _ cond yes no => remember id do
    return Term.ite cond (← formula yes) (← formula no)
  | subst id body pairs => remember id do (← formula body).under pairs

def formulas : List Constr → Memoized (List (Term .bool))
  | [] => return []
  | c :: cs => do return (← formula c) :: (← formulas cs)

end

/-- The formula of a constraint with the formulas of all its nodes. -/
def formulaWithMemo (c : Constr) : Except Fault (Term .bool × Memo) := (formula c).run {}

def toFormula (c : Constr) : Except Fault (Term .bool) := return (← formulaWithMemo c).1

end Constr

end Precond
