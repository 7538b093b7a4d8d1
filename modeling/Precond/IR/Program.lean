import Precond.IR.Arch

/-! Lifted programs: subroutines as lists of basic blocks. -/

namespace Precond.IR

/-- Where a jump leads: a known term, or an address computed at run time. -/
inductive Label
  | direct (tid : String)
  | indirect (addr : Exp)
  deriving DecidableEq, Repr, Inhabited

structure Def where
  lhs : Var
  rhs : Exp
  tid : String
  deriving DecidableEq, Repr, Inhabited

/-- A variable that takes one of several values, told by the block that control comes from. -/
structure Phi where
  lhs : Var
  values : List (String × Exp)
  tid : String
  nonempty : values ≠ []
  deriving DecidableEq, Repr

inductive JumpKind
  | goto (target : Label)
  | call (target : Label) (ret : Option Label)
  | ret (target : Label)
  | interrupt (number : Int) (ret : String)
  deriving DecidableEq, Repr, Inhabited

structure Jump where
  kind : JumpKind
  cond : Exp
  tid : String
  deriving DecidableEq, Repr, Inhabited

inductive Elt
  | phi (p : Phi)
  | define (d : Def)
  | jump (j : Jump)
  deriving DecidableEq, Repr

structure Blk where
  tid : String
  phis : List Phi
  defs : List Def
  jumps : List Jump
  deriving DecidableEq, Repr, Inhabited

inductive Intent
  | input | output | both
  deriving DecidableEq, Repr, Inhabited

structure Arg where
  var : Var
  intent : Intent
  deriving DecidableEq, Repr, Inhabited

structure Sub where
  name : String
  tid : String
  addr : Option Int
  args : List Arg
  blks : List Blk
  deriving DecidableEq, Repr, Inhabited

structure Program where
  arch : Arch
  subs : List Sub
  deriving DecidableEq, Repr, Inhabited

/-- The first value of a phi. -/
def Phi.first (p : Phi) : Exp := (p.values.head p.nonempty).2

/-- The value of a phi along a predecessor; of several the last counts. -/
def Phi.along? (p : Phi) (pred : String) : Option Exp := p.values.reverse.lookup pred

def Label.exps : Label → List Exp
  | direct _ => []
  | indirect e => [e]

/-- The expressions of a jump: its condition and computed addresses. -/
def Jump.exps (j : Jump) : List Exp :=
  j.cond :: match j.kind with
    | .goto t => t.exps
    | .call t r => t.exps ++ (r.map Label.exps).getD []
    | .ret t => t.exps
    | .interrupt .. => []

/-- The phis, then the definitions, then the jumps of a block. -/
def Blk.elts (b : Blk) : List Elt :=
  b.phis.map .phi ++ b.defs.map .define ++ b.jumps.map .jump

/-- The variables an element reads or writes, with repetitions. -/
def Elt.vars : Elt → List Var
  | phi p => p.lhs :: p.values.flatMap (·.2.freeVars)
  | define d => d.lhs :: d.rhs.freeVars
  | jump j => j.exps.flatMap Exp.freeVars

def Blk.vars (b : Blk) : List Var := b.elts.flatMap Elt.vars

/-- The arguments of a subroutine and the variables its blocks read or write. -/
def Sub.vars (s : Sub) : List Var :=
  (s.args.map (·.var) ++ s.blks.flatMap Blk.vars).eraseDups

def Sub.blk? (s : Sub) (tid : String) : Option Blk := s.blks.find? (·.tid == tid)

def Program.find? (p : Program) (name : String) : Option Sub := p.subs.find? (·.name == name)

/-- The subroutine that a label names, by its term or by its name behind an at-sign. -/
def findCallee? (subs : List Sub) : Label → Option Sub
  | .indirect _ => none
  | .direct tid =>
    let name := String.ofList (tid.toList.dropWhile (· == '@'))
    subs.find? fun s => s.tid == tid || s.name == name

/-- Sorted by name; variables of one name keep their order. -/
def sortByName (vars : List Var) : List Var :=
  vars.mergeSort fun a b => !(b.name < a.name)

end Precond.IR
