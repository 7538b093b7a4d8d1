/-! Expressions of lifted code: typed variables, literals, memory reads and writes, the word
operators, and local bindings. -/

namespace Precond.IR

inductive Ty
  | word (width : Int)
  | memory (addr cell : Nat)
  deriving DecidableEq, Repr, Inhabited

structure Var where
  name : String
  type : Ty
  deriving DecidableEq, Repr, Inhabited

inductive BinOp
  | add | sub | mul | udiv | sdiv | umod | smod
  | shl | lshr | ashr | and | or | xor
  | eq | ne | ult | ule | slt | sle
  deriving DecidableEq, Repr, Inhabited

inductive UnOp
  | neg | not
  deriving DecidableEq, Repr, Inhabited

inductive CastKind
  | unsigned | signed | high | low
  deriving DecidableEq, Repr, Inhabited

inductive Endian
  | little | big
  deriving DecidableEq, Repr, Inhabited

inductive Exp
  | var (v : Var)
  | lit {w : Nat} (x : BitVec w)
  | load (mem addr : Exp) (endian : Endian) (size : Int)
  | store (mem addr value : Exp) (endian : Endian) (size : Int)
  | bin (op : BinOp) (lhs rhs : Exp)
  | un (op : UnOp) (arg : Exp)
  | cast (kind : CastKind) (width : Int) (arg : Exp)
  | ite (cond yes no : Exp)
  | extract (hi lo : Int) (arg : Exp)
  | concat (lhs rhs : Exp)
  | unknown (desc : String) (type : Ty)
  | letIn (v : Var) (value body : Exp)
  deriving DecidableEq, Repr, Inhabited

/-- The kinds of expressions. -/
inductive ExpKind
  | var | lit | load | store | bin | un | cast | ite | extract | concat | unknown | letIn
  deriving DecidableEq, Repr, Inhabited

def Var.isMemory (v : Var) : Bool :=
  match v.type with
  | .memory .. => true
  | .word _ => false

namespace Exp

/-- The condition of a jump that is always taken. -/
def always : Exp := .lit (1#1)

def kind : Exp → ExpKind
  | var _ => .var
  | lit _ => .lit
  | load .. => .load
  | store .. => .store
  | bin .. => .bin
  | un .. => .un
  | cast .. => .cast
  | ite .. => .ite
  | extract .. => .extract
  | concat .. => .concat
  | unknown .. => .unknown
  | letIn .. => .letIn

def children : Exp → List Exp
  | var _ | lit _ | unknown .. => []
  | load m a _ _ => [m, a]
  | store m a v _ _ => [m, a, v]
  | bin _ l r | concat l r => [l, r]
  | un _ x | cast _ _ x | extract _ _ x => [x]
  | ite c y n => [c, y, n]
  | letIn _ v b => [v, b]

/-- The expression and all below it, each before its parts. -/
def walk : Exp → List Exp
  | e@(var _) | e@(lit _) | e@(unknown ..) => [e]
  | e@(load m a _ _) => e :: (m.walk ++ a.walk)
  | e@(store m a v _ _) => e :: (m.walk ++ a.walk ++ v.walk)
  | e@(bin _ l r) | e@(concat l r) => e :: (l.walk ++ r.walk)
  | e@(un _ x) | e@(cast _ _ x) | e@(extract _ _ x) => e :: x.walk
  | e@(ite c y n) => e :: (c.walk ++ y.walk ++ n.walk)
  | e@(letIn _ v b) => e :: (v.walk ++ b.walk)

/-- The variables that an expression reads from its surroundings, with repetitions. -/
def freeVars : Exp → List Var
  | var v => [v]
  | lit _ | unknown .. => []
  | load m a _ _ => m.freeVars ++ a.freeVars
  | store m a v _ _ => m.freeVars ++ a.freeVars ++ v.freeVars
  | bin _ l r | concat l r => l.freeVars ++ r.freeVars
  | un _ x | cast _ _ x | extract _ _ x => x.freeVars
  | ite c y n => c.freeVars ++ y.freeVars ++ n.freeVars
  | letIn v x b => x.freeVars ++ b.freeVars.filter (· ≠ v)

/-- Replace the free occurrences of a variable. Variables of the replacement are not protected
from the bindings they come under. -/
def replaceVar (e : Exp) (v : Var) (x : Exp) : Exp :=
  match e with
  | var u => if u = v then x else var u
  | lit _ | unknown .. => e
  | load m a e n => load (m.replaceVar v x) (a.replaceVar v x) e n
  | store m a y e n => store (m.replaceVar v x) (a.replaceVar v x) (y.replaceVar v x) e n
  | bin op l r => bin op (l.replaceVar v x) (r.replaceVar v x)
  | un op y => un op (y.replaceVar v x)
  | cast k w y => cast k w (y.replaceVar v x)
  | ite c y n => ite (c.replaceVar v x) (y.replaceVar v x) (n.replaceVar v x)
  | extract hi lo y => extract hi lo (y.replaceVar v x)
  | concat l r => concat (l.replaceVar v x) (r.replaceVar v x)
  | letIn u y b => letIn u (y.replaceVar v x) (if u = v then b else b.replaceVar v x)

def countLets : Exp → Nat
  | var _ | lit _ | unknown .. => 0
  | load m a _ _ => m.countLets + a.countLets
  | store m a v _ _ => m.countLets + a.countLets + v.countLets
  | bin _ l r | concat l r => l.countLets + r.countLets
  | un _ x | cast _ _ x | extract _ _ x => x.countLets
  | ite c y n => c.countLets + y.countLets + n.countLets
  | letIn _ x b => x.countLets + b.countLets + 1

/-- Replace the outermost local bindings by what `f` makes of them. -/
def mapLets (f : Var → Exp → Exp → Exp) : Exp → Exp
  | e@(var _) | e@(lit _) | e@(unknown ..) => e
  | load m a e n => load (m.mapLets f) (a.mapLets f) e n
  | store m a y e n => store (m.mapLets f) (a.mapLets f) (y.mapLets f) e n
  | bin op l r => bin op (l.mapLets f) (r.mapLets f)
  | un op y => un op (y.mapLets f)
  | cast k w y => cast k w (y.mapLets f)
  | ite c y n => ite (c.mapLets f) (y.mapLets f) (n.mapLets f)
  | extract hi lo y => extract hi lo (y.mapLets f)
  | concat l r => concat (l.mapLets f) (r.mapLets f)
  | letIn u y b => f u y b

/-- Eliminate up to `depth` nested local bindings: the value, free of bindings, replaces the
variable in the body, whose own bindings are eliminated next. -/
def inlineLetsTo : Nat → Exp → Exp
  | 0, e => e
  | depth + 1, e =>
    e.mapLets fun v x b => inlineLetsTo depth (b.replaceVar v (inlineLetsTo depth x))

/-- Eliminate all local bindings. -/
def inlineLets (e : Exp) : Exp := inlineLetsTo e.countLets e

end Exp

end Precond.IR
