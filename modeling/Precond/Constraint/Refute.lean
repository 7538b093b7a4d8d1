import Precond.Constraint.Formula

/-! Goals that fail in a model. The walk takes the branches that the model takes, enters a clause
only if all its hypotheses hold, and carries the substitutions it has come through, the innermost
first. -/

namespace Precond

/-- A failed goal, in terms of the model at the root, with the jumps on the way to it. -/
structure Refuted where
  name : String
  tid : Option String
  value : Term .bool
  path : List (String × Bool)

/-- The branch of a jump on a path; of several crossings the latest counts. -/
def setBranch (path : List (String × Bool)) (jump : String) (taken : Bool) : List (String × Bool) :=
  (jump, taken) :: path.filter (·.1 ≠ jump)

namespace Constr

/-- Substitutions in force, the innermost first. -/
abbrev Layers := List (List (SomeTerm × SomeTerm))

def underAll (t : Term .bool) (layers : Layers) : Except Fault (Term .bool) :=
  layers.foldlM (fun t pairs => t.under pairs) t

/-- Whether all hypotheses hold; those behind one that fails are not looked at. -/
def hypsHold (m : Model) (layers : Layers) : List Constr → Memoized Bool
  | [] => return true
  | h :: hs => do
    let t ← underAll (← h.formula) layers
    if t.holds m then hypsHold m layers hs else return false

mutual

def refutedFrom (m : Model) (layers : Layers) (path : List (String × Bool)) :
    Constr → Memoized (List Refuted)
  | goal _ name value tid => do
    let t ← underAll value layers
    return if t.holds m then [] else [⟨name, tid, t, path⟩]
  | clause _ hyps goals => do
    if ← hypsHold m layers hyps then refutedAmong m layers path goals else return []
  | branch _ jump cond yes no => do
    let t ← underAll cond layers
    if t.holds m then yes.refutedFrom m layers (setBranch path jump true)
    else no.refutedFrom m layers (setBranch path jump false)
  | subst _ body pairs => body.refutedFrom m (pairs :: layers) path

def refutedAmong (m : Model) (layers : Layers) (path : List (String × Bool)) :
    List Constr → Memoized (List Refuted)
  | [] => return []
  | c :: cs => do return (← c.refutedFrom m layers path) ++ (← refutedAmong m layers path cs)

end

/-- The goals that fail in a model, from left to right. -/
def refuted (c : Constr) (m : Model) : Except Fault (List Refuted) :=
  (c.refutedFrom m [] []).run' {}

end Constr

end Precond
