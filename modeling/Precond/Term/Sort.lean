/-! Sorts of terms and the values and functions over them. In a memory every address holds a cell. A
memory is a base value with finitely many written cells, the latest write first; two memories are the
same if they agree at every address, which is decided on the written addresses. -/

namespace Precond

structure Memory (a c : Nat) where
  base : BitVec c
  cells : List (BitVec a × BitVec c)
  deriving DecidableEq, Repr, Inhabited

namespace Memory

variable {a c : Nat}

def get (m : Memory a c) (x : BitVec a) : BitVec c := (m.cells.lookup x).getD m.base

def set (m : Memory a c) (x : BitVec a) (v : BitVec c) : Memory a c :=
  { m with cells := (x, v) :: m.cells }

/-- The written addresses, each once. -/
def written (m : Memory a c) : List (BitVec a) := (m.cells.map (·.1)).eraseDups

/-- Whether two memories agree at every address. -/
def agree (m n : Memory a c) : Bool :=
  let keys := (m.cells.map (·.1) ++ n.cells.map (·.1)).eraseDups
  keys.all (fun x => m.get x == n.get x) && (m.base == n.base || keys.length == Nat.pow 2 a)

theorem get_set_self (m : Memory a c) (x : BitVec a) (v : BitVec c) : (m.set x v).get x = v := by
  simp [get, set]

theorem get_set_of_ne (m : Memory a c) {x y : BitVec a} (v : BitVec c) (h : y ≠ x) :
    (m.set x v).get y = m.get y := by
  simp [get, set, List.lookup_cons, beq_false_of_ne h]

end Memory

inductive TSort
  | bool
  | bv (w : Nat)
  | mem (addr cell : Nat)
  deriving DecidableEq, Repr, Inhabited

namespace TSort

def Val : TSort → Type
  | bool => Bool
  | bv w => BitVec w
  | mem a c => Memory a c

instance : (s : TSort) → DecidableEq s.Val
  | bool => inferInstanceAs (DecidableEq Bool)
  | bv w => inferInstanceAs (DecidableEq (BitVec w))
  | mem a c => inferInstanceAs (DecidableEq (Memory a c))

instance : (s : TSort) → Inhabited s.Val
  | bool => inferInstanceAs (Inhabited Bool)
  | bv w => inferInstanceAs (Inhabited (BitVec w))
  | mem a c => inferInstanceAs (Inhabited (Memory a c))

/-- Equality of values; memories are compared address by address. -/
def agree : (s : TSort) → s.Val → s.Val → Bool
  | bool, x, y => show Bool from Bool.xor (Bool.not x) y
  | bv w, x, y => @BEq.beq (BitVec w) _ x y
  | mem _ _, x, y => Memory.agree x y

def toText : TSort → String
  | bool => "Bool"
  | bv w => "BitVec(" ++ toString w ++ ")"
  | mem a c => "Array(BitVec(" ++ toString a ++ "), BitVec(" ++ toString c ++ "))"

end TSort

/-- Functions with arguments of the given sorts, one after the other. -/
def Fn : List TSort → TSort → Type
  | [], r => r.Val
  | s :: ss, r => s.Val → Fn ss r

namespace Fn

/-- The function that gives one value for all arguments. -/
def const : (dom : List TSort) → {ran : TSort} → ran.Val → Fn dom ran
  | [], _, v => v
  | _ :: ss, _, v => fun _ => const ss v

/-- Conjunction of `n` further truth values. -/
def all : (n : Nat) → Bool → Fn (List.replicate n .bool) .bool
  | 0, acc => acc
  | n + 1, acc => fun b => all n (acc && show Bool from b)

/-- Disjunction of `n` further truth values. -/
def any : (n : Nat) → Bool → Fn (List.replicate n .bool) .bool
  | 0, acc => acc
  | n + 1, acc => fun b => any n (acc || show Bool from b)

/-- Parity of `n` further truth values. -/
def parity : (n : Nat) → Bool → Fn (List.replicate n .bool) .bool
  | 0, acc => acc
  | n + 1, acc => fun b => parity n (Bool.xor acc b)

/-- Whether `n` further values differ from each other and from those seen. -/
def pairwiseDistinct (s : TSort) : (n : Nat) → List s.Val → Bool → Fn (List.replicate n s) .bool
  | 0, _, acc => acc
  | n + 1, seen, acc => fun v => pairwiseDistinct s n (v :: seen) (acc && !(seen.any (s.agree v)))

end Fn

end Precond
