import Precond.Env.Basic
import Precond.Term.Print

/-! The state of a backward walk: the environments of the first and, in a comparison, the second
program, and the numbers of new constraint nodes. Changes are kept also when they end in a fault. -/

namespace Precond

open IR Precond.Flow

/-- The first or the second program. -/
inductive Side
  | orig | mod
  deriving DecidableEq, Repr, Inhabited

structure World where
  orig : Env
  mod : Env
  nodes : Nat
  /-- How many expressions have been translated with their conditions. -/
  translations : Nat

def World.start (orig mod : Env) : World := ⟨orig, mod, 0, 0⟩

def World.env (w : World) : Side → Env
  | .orig => w.orig
  | .mod => w.mod

def World.setEnv (w : World) (side : Side) (e : Env) : World :=
  match side with
  | .orig => { w with orig := e }
  | .mod => { w with mod := e }

abbrev Walk := EStateM Fault World

namespace Walk

variable {α : Type}

def ofExcept : Except Fault α → Walk α
  | .ok x => return x
  | .error f => throw f

/-- What must be there. -/
def present : Option α → Walk α
  | some x => return x
  | none => throw .missingEntry

instance : MonadLift (Except Fault) Walk := ⟨ofExcept⟩

def env (side : Side) : Walk Env := return (← get).env side

/-- Change one environment. -/
def on (side : Side) (act : EnvM α) : Walk α := fun w =>
  match act (w.env side) with
  | .ok x e => .ok x (w.setEnv side e)
  | .error f e => .error f (w.setEnv side e)

def modifyEnv (side : Side) (f : Env → Env) : Walk Unit := modify fun w => w.setEnv side (f (w.env side))

/-- Run an action and set one environment right afterwards, however the action ends. -/
def restoring (side : Side) (f : Env → Env) (act : Walk α) : Walk α := fun w =>
  match act w with
  | .ok x w => .ok x (w.setEnv side (f (w.env side)))
  | .error e w => .error e (w.setEnv side (f (w.env side)))

/-- Run an action while a variable stands for a term. -/
def binding (side : Side) (v : Var) (t : SomeTerm) (act : Walk α) : Walk α := do
  let before := (← env side).vars.lookup v
  on side (Env.addVar v t)
  restoring side (Env.restoreVar v before) act

/-- Run an action in a frame for a callee. -/
def inFrame (side : Side) (act : Walk α) : Walk α := do
  let frame := (← env side).frame
  modifyEnv side fun e => { e with frame := frame.nested }
  restoring side (fun e => { e with frame }) act

/-- The number of a new node. -/
def newNode : Walk Nat := modifyGet fun w => (w.nodes, { w with nodes := w.nodes + 1 })

def mkGoal (name : String) (value : Term .bool) (tid : Option String) : Walk Constr := do
  return .goal (← newNode) name value tid

def mkClause (hyps goals : List Constr) : Walk Constr := do
  return .clause (← newNode) hyps goals

def mkBranch (jump : String) (cond : Term .bool) (yes no : Constr) : Walk Constr := do
  return .branch (← newNode) jump cond yes no

/-- All constraints; of a single one the constraint itself. -/
def conjoin (cs : List Constr) : Walk Constr :=
  match cs with
  | [c] => return c
  | cs => mkClause [] cs

def trivial : Walk Constr := mkGoal "true" (.truth true) none

/-- A constraint with terms replaced. -/
def substitute (c : Constr) (olds news : List SomeTerm) : Walk Constr := do
  if olds.isEmpty then return c
  else if olds.length ≠ news.length then throw .lengthsDiffer
  else return .subst (← newNode) c (olds.zip news)

/-- The constraint under conditions to assume and conditions to verify. -/
def guard (assumes verifies : List Hook) (post : Constr) : Walk Constr := do
  if assumes.isEmpty && verifies.isEmpty then return post
  else
    let hyps ← assumes.mapM fun h => mkGoal h.name h.term none
    let goals ← verifies.mapM fun h => mkGoal h.name h.term none
    mkClause hyps (goals ++ [post])

end Walk

end Precond
