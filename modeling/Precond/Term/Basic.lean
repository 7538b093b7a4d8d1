import Precond.Term.Sort

/-! Terms over words, truth values and memories. Every operator tells the sorts it takes and the sort
it gives, and a term is an operator applied to its arguments one at a time, so that each term has
exactly one sort. Terms are never simplified. -/

namespace Precond

inductive BvUn
  | neg | not
  deriving DecidableEq, Repr

inductive BvBin
  | add | sub | mul | udiv | sdiv | urem | srem | smod | and | or | xor | shl | lshr | ashr
  deriving DecidableEq, Repr

inductive BvCmp
  | ult | ule | ugt | uge | slt | sle | sgt | sge
  deriving DecidableEq, Repr

inductive Op
  | boolLit (b : Bool)
  | bvLit {w : Nat} (x : BitVec w)
  | memLit {a c : Nat} (m : Memory a c)
  | not
  | implies
  | and (n : Nat)
  | or (n : Nat)
  | xor (n : Nat)
  | eq (s : TSort)
  | distinct (s : TSort) (n : Nat)
  | ite (s : TSort)
  | bvUn (op : BvUn) (w : Nat)
  | bvBin (op : BvBin) (w : Nat)
  | bvCmp (op : BvCmp) (w : Nat)
  | concat (high low : Nat)
  | extract (hi lo w : Nat)
  | zeroExtend (n w : Nat)
  | signExtend (n w : Nat)
  | select (a c : Nat)
  | store (a c : Nat)
  | func (name : String) (dom : List TSort) (ran : TSort)
  deriving DecidableEq, Repr

namespace Op

def dom : Op → List TSort
  | boolLit _ | bvLit _ | memLit _ => []
  | not => [.bool]
  | implies => [.bool, .bool]
  | and n | or n | xor n => List.replicate n .bool
  | eq s => [s, s]
  | distinct s n => List.replicate n s
  | ite s => [.bool, s, s]
  | bvUn _ w => [.bv w]
  | bvBin _ w | bvCmp _ w => [.bv w, .bv w]
  | concat h l => [.bv h, .bv l]
  | extract _ _ w | zeroExtend _ w | signExtend _ w => [.bv w]
  | select a c => [.mem a c, .bv a]
  | store a c => [.mem a c, .bv a, .bv c]
  | func _ dom _ => dom

def ran : Op → TSort
  | boolLit _ | not | implies | and _ | or _ | xor _ | eq _ | distinct _ _ | bvCmp .. => .bool
  | @bvLit w _ => .bv w
  | @memLit a c _ => .mem a c
  | ite s => s
  | bvUn _ w | bvBin _ w => .bv w
  | concat h l => .bv (h + l)
  | extract hi lo _ => .bv (hi - lo + 1)
  | zeroExtend n w | signExtend n w => .bv (w + n)
  | select _ c => .bv c
  | store a c => .mem a c
  | func _ _ ran => ran

end Op

/-- A constant or an operator with its first arguments; `dom` lists the sorts still missing. -/
inductive Spine : (dom : List TSort) → (ran : TSort) → Type
  | const (name : String) (s : TSort) : Spine [] s
  | op (f : Op) : Spine f.dom f.ran
  | app {s : TSort} {dom : List TSort} {ran : TSort} (f : Spine (s :: dom) ran) (x : Spine [] s) :
      Spine dom ran

abbrev Term (s : TSort) := Spine [] s

/-- A term with its sort. -/
abbrev SomeTerm := (s : TSort) × Term s

namespace Spine

variable {d d' : List TSort} {r r' : TSort}

/-- Structural equality, also between terms of different sorts. -/
def same {d d' : List TSort} {r r' : TSort} : Spine d r → Spine d' r' → Bool
  | const n s, const n' s' => n == n' && s == s'
  | op f, op f' => f == f'
  | app f x, app f' x' => f.same f' && x.same x'
  | _, _ => false

/-- The number of nodes of a term as a tree; an operator counts with its arguments. -/
def size {d : List TSort} {r : TSort} : Spine d r → Nat
  | const .. | op _ => 1
  | app f x => f.size + x.size

def isNumeral {d : List TSort} {r : TSort} : Spine d r → Bool
  | op (.bvLit _) => true
  | _ => false

/-- Supply arguments of one sort. -/
def saturate {s : TSort} {r : TSort} : (xs : List (Term s)) →
    Spine (List.replicate xs.length s) r → Term r
  | [], f => f
  | x :: xs, f => saturate xs (app f x)

/-- The constants of a term with their sorts, with repetitions. -/
def constants {d : List TSort} {r : TSort} : Spine d r → List (String × TSort)
  | const n s => [(n, s)]
  | op _ => []
  | app f x => f.constants ++ x.constants

end Spine

namespace SomeTerm

def same (x y : SomeTerm) : Bool := x.2.same y.2

end SomeTerm

end Precond
