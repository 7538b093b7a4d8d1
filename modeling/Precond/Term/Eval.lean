import Precond.Term.Basic

/-! Values of terms. Division by zero gives all ones, a remainder by zero the dividend; signed
division by zero gives minus one or one. Shifts by the width or more leave nothing, or the sign. -/

namespace Precond

/-- An interpretation of all constants and function names. -/
structure Model where
  const : String → (s : TSort) → s.Val
  func : String → (dom : List TSort) → (ran : TSort) → Fn dom ran

namespace BvUn

def eval {w : Nat} : BvUn → BitVec w → BitVec w
  | neg, x => -x
  | not, x => ~~~x

end BvUn

namespace BvBin

def eval {w : Nat} : BvBin → BitVec w → BitVec w → BitVec w
  | add, x, y => x + y
  | sub, x, y => x - y
  | mul, x, y => x * y
  | udiv, x, y => x.smtUDiv y
  | sdiv, x, y => x.smtSDiv y
  | urem, x, y => x.umod y
  | srem, x, y => x.srem y
  | smod, x, y => x.smod y
  | and, x, y => x &&& y
  | or, x, y => x ||| y
  | xor, x, y => x ^^^ y
  | shl, x, y => if w ≤ y.toNat then 0#w else x <<< y.toNat
  | lshr, x, y => if w ≤ y.toNat then 0#w else x >>> y.toNat
  | ashr, x, y => x.sshiftRight (min y.toNat w)

end BvBin

namespace BvCmp

def eval {w : Nat} : BvCmp → BitVec w → BitVec w → Bool
  | ult, x, y => x.ult y
  | ule, x, y => x.ule y
  | ugt, x, y => y.ult x
  | uge, x, y => y.ule x
  | slt, x, y => x.slt y
  | sle, x, y => x.sle y
  | sgt, x, y => y.slt x
  | sge, x, y => y.sle x

end BvCmp

/-- The function an operator stands for. -/
def Op.meaning (m : Model) : (f : Op) → Fn f.dom f.ran
  | boolLit b => b
  | bvLit x => x
  | memLit x => x
  | not => fun x => Bool.not x
  | implies => fun x y => Bool.or (Bool.not x) y
  | and n => Fn.all n true
  | or n => Fn.any n false
  | xor n => Fn.parity n false
  | eq s => s.agree
  | distinct s n => Fn.pairwiseDistinct s n [] true
  | ite _ => fun b x y => cond b x y
  | bvUn op _ => op.eval
  | bvBin op _ => op.eval
  | bvCmp op _ => op.eval
  | concat _ _ => BitVec.append
  | extract hi lo _ => BitVec.extractLsb hi lo
  | zeroExtend n w => BitVec.zeroExtend (w + n)
  | signExtend n w => BitVec.signExtend (w + n)
  | select _ _ => Memory.get
  | store _ _ => Memory.set
  | func name dom ran => m.func name dom ran

/-- The value of a term in a model. -/
def Spine.eval (m : Model) {d : List TSort} {r : TSort} : Spine d r → Fn d r
  | const name s => m.const name s
  | op f => f.meaning m
  | app f x => f.eval m (x.eval m)

/-- The truth of a formula in a model. -/
def Spine.holds (m : Model) (t : Term .bool) : Bool := t.eval m

/-! ### Replacement

Subterms are replaced simultaneously. A subterm that is replaced is not looked into, and what it is
replaced by is not either; of several replacements for one term the last counts. -/

/-- A term and the term of its sort that replaces it. -/
structure Swap where
  {sort : TSort}
  old : Term sort
  new : Term sort

/-- The pair of two terms of one sort. -/
def Swap.ofPair? : SomeTerm × SomeTerm → Option Swap
  | (⟨s, old⟩, ⟨s', new⟩) => if h : s' = s then some ⟨old, h ▸ new⟩ else none

/-- The replacement of a term, if it has one. -/
def Swap.find? {s : TSort} (swaps : List Swap) (t : Term s) : Option (Term s) :=
  swaps.foldl (fun found w =>
    if w.old.same t then (if h : w.sort = s then some (h ▸ w.new) else found) else found) none

namespace Spine

/-- The replacement of a complete term, or else its rebuilt form. -/
def swapWith (swaps : List Swap) : {d : List TSort} → {r : TSort} → Spine d r → Spine d r → Spine d r
  | [], _, whole, rebuilt => (Swap.find? swaps whole).getD rebuilt
  | _ :: _, _, _, rebuilt => rebuilt

def replace (swaps : List Swap) {d : List TSort} {r : TSort} : Spine d r → Spine d r
  | const n s => swapWith swaps (const n s) (const n s)
  | op f => swapWith swaps (op f) (op f)
  | app f x => swapWith swaps (app f x) (app (f.replace swaps) (x.replace swaps))

end Spine

/-- The model in which each replaced constant has the value of its replacement. -/
def Model.update (m : Model) (swaps : List Swap) : Model where
  const name s := (Swap.find? swaps (.const name s)).elim (m.const name s) (·.eval m)
  func := m.func

end Precond
