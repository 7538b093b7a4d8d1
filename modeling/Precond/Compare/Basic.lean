import Precond.Walk.Formula
import Precond.Walk.Inputs
import Precond.Walk.Sub

/-! Comparing two programs. A comparator relates the states of both programs at the exits and at the
entries. The constraint of a comparison says: whenever the entries are related, the two programs, run
one after the other, end in related states. -/

namespace Precond

open IR Walk

/-- A relation between the states of two subroutines, as a constraint. -/
abbrev PairRel := Sub → Sub → Walk Constr

structure Comparator where
  post : PairRel
  hyp : PairRel

namespace PairRel

/-- The relation that always holds. -/
def any : PairRel := fun _ _ => trivial

/-- Variables in order of names are equal in both programs. -/
def equalVars (vars : List Var) (label : String) : Walk Constr := do
  let goals ← (sortByName vars).mapM fun v => do
    let x ← on .orig (Env.mkVar v)
    let y ← on .mod (Env.mkVar v)
    equate (label ++ " " ++ v.name ++ ": " ++ x.toText ++ " = " ++ y.toText) x y
  mkClause [] goals

/-- The variables that both programs have. -/
def sharedVars (orig mod : Sub) : Walk (List Var) := do
  let vars := varsOf (← env .mod) mod
  return (varsOf (← env .orig) orig).filter vars.contains

/-- The variables that both programs have are equal at entry. -/
def equalInputs : PairRel := fun orig mod => do
  equalVars (← sharedVars orig mod) "input"

/-- The name that a called label is known by. -/
def calleeName (e : Env) (l : Label) : Option String :=
  match l with
  | .indirect _ => none
  | .direct tid =>
    let name := match e.findSub? l with
      | some s => s.name
      | none => String.ofList (tid.toList.dropWhile (· == '@'))
    some (e.canonical name)

def calleeOf (e : Env) (j : Jump) : Option String :=
  match j.kind with
  | .call target _ => calleeName e target
  | _ => none

def callees (e : Env) (s : Sub) : List String :=
  s.blks.flatMap fun b => b.jumps.filterMap (calleeOf e)

/-- The names of the callees of both programs, sorted. -/
def calleesOfBoth (orig mod : Sub) : Walk (List String) := do
  let names := callees (← env .orig) orig ++ callees (← env .mod) mod
  return names.eraseDups.mergeSort fun a b => !(b < a)

/-- What the first program has called, the second has called too. -/
def sameCalls : PairRel := fun orig mod => do
  let goals ← (← calleesOfBoth orig mod).mapM fun name => do
    let p ← on .orig (Env.getCalled name)
    let q ← on .mod (Env.getCalled name)
    mkGoal (name ++ " called in both") (p.implies q) none
  mkClause [] goals

/-- Nothing has been called yet. -/
def nothingCalled (side : Side) (name : String) : Walk Constr := do
  let p ← on side (Env.getCalled name)
  mkGoal (p.toText ++ " starts false") p.not none

end PairRel

namespace Comparator

open PairRel

/-- Only side conditions are compared. -/
def empty : Comparator := ⟨any, any⟩

/-- Only side conditions are compared, from equal inputs on. -/
def emptyPost : Comparator := ⟨any, equalInputs⟩

/-- Equal registers at entry give equal registers at exit. -/
def registers (pre post : List Var) : Comparator where
  post := fun _ _ => equalVars post "output"
  hyp := fun _ _ => equalVars pre "input"

/-- Both stack pointers start in the stack. -/
def stackPointers : Comparator where
  post := any
  hyp := fun _ _ => do
    let orig ← mkGoal "orig sp in stack range" (← on .orig Env.spRange) none
    let mod ← mkGoal "mod sp in stack range" (← on .mod Env.spRange) none
    mkClause [] [orig, mod]

/-- Given constraints. -/
def given (pre post : Constr) : Comparator := ⟨fun _ _ => return post, fun _ _ => return pre⟩

/-- The second program calls what the first one calls, from equal inputs on. -/
def calls : Comparator where
  post := sameCalls
  hyp := fun orig mod => do
    let goals ← (← calleesOfBoth orig mod).mapM fun name => do
      return [← nothingCalled .orig name, ← nothingCalled .mod name]
    mkClause [] (goals.flatten ++ [← equalInputs orig mod])

/-- Conditions in SMT-LIB text. -/
def formulas (post hyp : String) : Comparator :=
  ⟨fun _ _ => formulaForBoth post, fun _ _ => formulaForBoth hyp⟩

/-- Both memories are equal at entry. -/
def memories : Comparator where
  post := any
  hyp := fun _ _ => do equalVars [(← env .orig).arch.mem] "memory"

/-- Registers of both programs point into the heap at entry. -/
def pointers (names : List String) : Comparator := ⟨any, fun _ _ => pointersBoth names⟩

end Comparator

namespace Compare

/-- The entries are related and every variable has its entry value; then what has to be proved is the
precondition of the first program for the precondition of the second one for related exits. -/
def subs (cmps : List Comparator) (orig mod : Sub) : Walk Constr := do
  let first ← snapshot .orig (varsOf (← env .orig) orig)
  let second ← snapshot .mod (varsOf (← env .mod) mod)
  let posts ← cmps.mapM fun c => c.post orig mod
  let post ← match posts with
    | [] => trivial
    | posts => conjoin posts
  let hyps ← cmps.mapM fun c => c.hyp orig mod
  let hyp ← conjoin (hyps ++ first ++ second)
  let preMod ← visitSub .mod post mod
  let pre ← visitSub .orig preMod orig
  mkClause [hyp] [pre]

def isBlankText (s : String) : Bool := s.toList.all Text.isMargin

/-- Two blocks by themselves: equal registers `pre` before give equal registers `post` behind, with
further conditions in SMT-LIB text. -/
def blocks (pre post : List Var) (orig mod : Blk) (postText hypText : String) : Walk Constr := do
  let _ ← snapshot .orig ((orig.vars ++ pre ++ post).eraseDups)
  let _ ← snapshot .mod ((mod.vars ++ pre ++ post).eraseDups)
  let outputs ← PairRel.equalVars post "output"
  let inputs ← PairRel.equalVars pre "input"
  let posts ← if isBlankText postText then pure [] else do pure [← formulaForBoth postText]
  let hyps ← if isBlankText hypText then pure [] else do pure [← formulaForBoth hypText]
  let preMod ← visitBlockAlone .mod (← conjoin (outputs :: posts)) mod
  let pre ← visitBlockAlone .orig preMod orig
  mkClause [← conjoin (inputs :: hyps)] [pre]

/-- The old names of subroutines that have been renamed: those of the subroutines of the first
program at their addresses. -/
def renamed (orig mod : List Sub) : Table String String :=
  mod.foldl (fun t s =>
    match s.addr with
    | none => t
    | some a =>
      if orig.any (·.name == s.name) then t
      else
        match orig.reverse.find? (·.addr = some a) with
        | some o => Table.put t s.name o.name
        | none => t) []

end Compare

end Precond
