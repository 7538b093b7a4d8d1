import Precond.Term.Print
import Precond.Walk.Basic

/-! What is known at the entry of a subroutine: every variable has its entry value, the stack pointer
lies in the stack, and some registers hold pointers into the heap. -/

namespace Precond.Walk

open IR

/-- The variables of a subroutine and the registers. -/
def varsOf (e : Env) (s : Sub) : List Var := (s.vars ++ e.arch.registers).eraseDups

/-- The variables of a subroutine and the registers that have one of some names. -/
def varsNamed (e : Env) (s : Sub) (names : List String) : List Var :=
  (varsOf e s).filter fun v => names.contains v.name

/-- A goal that two terms are equal. -/
def equate (name : String) (x y : SomeTerm) : Walk Constr := do
  mkGoal name (← x.eq y) none

/-- Each variable in order of names is bound, and equal to its value at entry. -/
def snapshot (side : Side) (vars : List Var) : Walk (List Constr) :=
  (sortByName vars).mapM fun v => do
    let t ← on side (Env.mkVar v)
    let init ← on side (Env.mkInitVar v)
    equate (init.toText ++ " = " ++ t.toText) init t

def stackPointerGoal (side : Side) : Walk Constr := do
  let sp ← on side (Env.mkVar (← env side).arch.sp)
  mkGoal (sp.toText ++ " in stack range") (← on side Env.spRange) none

/-- A register points into the heap and not into the stack. -/
def pointerGoal (side : Side) (reg : Var) : Walk Constr := do
  let t ← on side (Env.mkVar reg)
  let ⟨_, addr⟩ ← ofExcept t.sized
  let e ← env side
  mkGoal (t.toText ++ " is a heap pointer") (.and [e.inHeap addr, (e.inStack addr).not]) none

def register (side : Side) (name : String) : Walk Var := do
  let arch := (← env side).arch
  match arch.reg? name with
  | some v => return v
  | none => throw (.unknownRegister name arch.name)

/-- Registers of one program point into the heap. -/
def pointers (names : List String) : Walk Constr := do
  let regs ← names.mapM (register .orig)
  mkClause [] (← regs.mapM (pointerGoal .orig))

/-- Registers of both programs point into the heap. -/
def pointersBoth (names : List String) : Walk Constr := do
  let orig ← names.mapM (register .orig)
  let mod ← names.mapM (register .mod)
  let goals ← orig.mapM (pointerGoal .orig)
  mkClause [] (goals ++ (← mod.mapM (pointerGoal .mod)))

end Precond.Walk
