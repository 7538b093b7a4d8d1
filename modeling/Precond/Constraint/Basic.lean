import Precond.Term.Build
import Precond.Term.Eval

/-! Constraint trees: what is left to prove, built backwards. A goal is a named obligation, a clause
says that its hypotheses imply its goals, a branch belongs to a conditional jump, and a substitution
belongs to an assignment. Parts are shared between trees. Every node has a number of its own: two
nodes are the same node if and only if their numbers are equal. -/

namespace Precond

inductive Constr
  | goal (id : Nat) (name : String) (value : Term .bool) (tid : Option String)
  | clause (id : Nat) (hyps goals : List Constr)
  | branch (id : Nat) (jump : String) (cond : Term .bool) (yes no : Constr)
  | subst (id : Nat) (body : Constr) (pairs : List (SomeTerm × SomeTerm))

namespace Constr

instance : Inhabited Constr := ⟨.clause 0 [] []⟩

def id : Constr → Nat
  | goal id .. | clause id .. | branch id .. | subst id .. => id

/-- The parts of a node: hypotheses before goals, the taken branch before the other. -/
def children : Constr → List Constr
  | goal .. => []
  | clause _ hyps goals => hyps ++ goals
  | branch _ _ _ yes no => [yes, no]
  | subst _ body _ => [body]

/-- The pairs of a substitution that have one sort. -/
def swaps (pairs : List (SomeTerm × SomeTerm)) : List Swap := pairs.filterMap Swap.ofPair?

mutual

/-- What a constraint says about a model: a substitution is an update of the model. -/
def holds (m : Model) : Constr → Bool
  | goal _ _ value _ => value.holds m
  | clause _ hyps goals => !allHold m hyps || allHold m goals
  | branch _ _ cond yes no => if cond.holds m then yes.holds m else no.holds m
  | subst _ body pairs => body.holds (m.update (swaps pairs))

def allHold (m : Model) : List Constr → Bool
  | [] => true
  | c :: cs => c.holds m && allHold m cs

end

end Constr

end Precond
