import Precond.Fault
import Precond.Term.Basic

/-! Building terms. A comparison whose right side is a numeral and whose left side is not is written
with the numeral in front, the relation turned round. -/

namespace Precond

namespace Term

variable {s : TSort} {w : Nat}

def truth (b : Bool) : Term .bool := .op (.boolLit b)

/-- The numeral of an integer, taken modulo the width. -/
def numeral (w : Nat) (v : Int) : Term (.bv w) := .op (.bvLit (BitVec.ofInt w v))

/-- The term that stands for a value. -/
def ofValue : (s : TSort) → s.Val → Term s
  | .bool, b => .op (.boolLit b)
  | .bv _, x => .op (.bvLit x)
  | .mem _ _, m => .op (.memLit m)

def not (p : Term .bool) : Term .bool := .app (.op .not) p

def implies (p q : Term .bool) : Term .bool := .app (.app (.op .implies) p) q

def and (ps : List (Term .bool)) : Term .bool := .saturate ps (.op (.and ps.length))

def or (ps : List (Term .bool)) : Term .bool := .saturate ps (.op (.or ps.length))

def xor (ps : List (Term .bool)) : Term .bool := .saturate ps (.op (.xor ps.length))

def ite (c : Term .bool) (x y : Term s) : Term s := .app (.app (.app (.op (.ite s)) c) x) y

def un (op : BvUn) (x : Term (.bv w)) : Term (.bv w) := .app (.op (.bvUn op w)) x

def bin (op : BvBin) (x y : Term (.bv w)) : Term (.bv w) := .app (.app (.op (.bvBin op w)) x) y

def cmp (op : BvCmp) (x y : Term (.bv w)) : Term .bool := .app (.app (.op (.bvCmp op w)) x) y

/-- Whether a comparison of two terms is turned round. -/
def turned (x y : Term s) : Bool := y.isNumeral && !x.isNumeral

def eq (x y : Term s) : Term .bool :=
  if turned x y then .app (.app (.op (.eq s)) y) x else .app (.app (.op (.eq s)) x) y

def ne (x y : Term s) : Term .bool :=
  if turned x y then .saturate [y, x] (.op (.distinct s 2))
  else .saturate [x, y] (.op (.distinct s 2))

/-- Signed less-than. -/
def slt (x y : Term (.bv w)) : Term .bool :=
  if turned x y then cmp .sgt y x else cmp .slt x y

/-- Signed less-or-equal. -/
def sle (x y : Term (.bv w)) : Term .bool :=
  if turned x y then cmp .sge y x else cmp .sle x y

def concat {v : Nat} (x : Term (.bv w)) (y : Term (.bv v)) : Term (.bv (w + v)) :=
  .app (.app (.op (.concat w v)) x) y

def zeroExtend (n : Nat) (x : Term (.bv w)) : Term (.bv (w + n)) := .app (.op (.zeroExtend n w)) x

def signExtend (n : Nat) (x : Term (.bv w)) : Term (.bv (w + n)) := .app (.op (.signExtend n w)) x

def slice (hi lo : Nat) (x : Term (.bv w)) : Term (.bv (hi - lo + 1)) :=
  .app (.op (.extract hi lo w)) x

def select {a c : Nat} (m : Term (.mem a c)) (x : Term (.bv a)) : Term (.bv c) :=
  .app (.app (.op (.select a c)) m) x

def store {a c : Nat} (m : Term (.mem a c)) (x : Term (.bv a)) (v : Term (.bv c)) :
    Term (.mem a c) :=
  .app (.app (.app (.op (.store a c)) m) x) v

/-- The bits from `hi` down to `lo`. -/
def extract (hi lo : Int) (x : Term (.bv w)) : Except Fault SomeTerm :=
  if 0 ≤ lo ∧ lo ≤ hi ∧ hi < w then .ok ⟨_, slice hi.toNat lo.toNat x⟩ else .error .illSorted

/-- A word read as a truth value: anything but zero is true. -/
def nonZero (x : Term (.bv w)) : Term .bool := ne x (numeral w 0)

/-- A truth value as a word of one bit. -/
def ofTruth (p : Term .bool) : Term (.bv 1) := ite p (numeral 1 1) (numeral 1 0)

end Term

namespace SomeTerm

/-- The term as one of a given sort. -/
def as (s : TSort) (t : SomeTerm) : Except Fault (Term s) :=
  if h : t.1 = s then .ok (h ▸ t.2) else .error .illSorted

/-- The term as a word, for an operation that takes words only. -/
def word (what : String) : SomeTerm → Except Fault ((w : Nat) × Term (.bv w))
  | ⟨.bv w, x⟩ => .ok ⟨w, x⟩
  | ⟨s, _⟩ => .error (.translation (.needsWord what s))

/-- The term as a memory, for an operation that takes memories only. -/
def memory (what : String) : SomeTerm → Except Fault ((a : Nat) × (c : Nat) × Term (.mem a c))
  | ⟨.mem a c, m⟩ => .ok ⟨a, c, m⟩
  | ⟨s, _⟩ => .error (.translation (.needsMemory what s))

/-- The term as something that has a width. -/
def sized : SomeTerm → Except Fault ((w : Nat) × Term (.bv w))
  | ⟨.bv w, x⟩ => .ok ⟨w, x⟩
  | _ => .error .noWidth

/-- Equality of two terms, which must have one sort. -/
def eq (x y : SomeTerm) : Except Fault (Term .bool) := return Term.eq x.2 (← y.as x.1)

/-- The condition that a word is not zero. -/
def condition (t : SomeTerm) : Except Fault (Term .bool) := do
  let ⟨_, x⟩ ← t.word "condition"
  return x.nonZero

end SomeTerm

/-- Supply arguments whose sorts are checked. -/
def Spine.applyTo {r : TSort} : {d : List TSort} → Spine d r → List SomeTerm → Except Fault (Term r)
  | [], f, [] => .ok f
  | s :: _, f, x :: xs => do applyTo (.app f (← x.as s)) xs
  | _, _, _ => .error .illSorted

/-- A declared function. -/
structure FuncDecl where
  name : String
  dom : List TSort
  ran : TSort
  deriving DecidableEq, Repr, Inhabited

/-- The application of a declared function; one without arguments is a constant. -/
def FuncDecl.apply (f : FuncDecl) (args : List SomeTerm) : Except Fault SomeTerm :=
  match f.dom, args with
  | [], [] => .ok ⟨f.ran, .const f.name f.ran⟩
  | _, _ => do return ⟨_, ← Spine.applyTo (.op (.func f.name f.dom f.ran)) args⟩

/-- The sort of a type of lifted code. -/
def IR.Ty.sort : IR.Ty → Except Fault TSort
  | .word w => if 0 < w then .ok (.bv w.toNat) else .error .illSorted
  | .memory a c => if 0 < a ∧ 0 < c then .ok (.mem a c) else .error .illSorted

end Precond
