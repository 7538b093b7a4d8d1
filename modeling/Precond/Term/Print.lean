import Precond.Term.Basic
import Precond.Text.Digit
import Std.Data.HashMap

/-! Text of terms. A term of more than fifteen hundred nodes is shown by its size, the number of its
distinct subterms and a hash. -/

namespace Precond

open Text

def numeralText {w : Nat} (x : BitVec w) : String := hexNat x.toNat ++ ":" ++ toString w

/-- The cells of a memory that differ from its base, by ascending address. -/
def Memory.differing {a c : Nat} (m : Memory a c) : List (BitVec a × BitVec c) :=
  let addrs := m.written.filter fun x => m.get x != m.base
  (addrs.mergeSort fun x y => x.toNat ≤ y.toNat).map fun x => (x, m.get x)

def Memory.toText {a c : Nat} (m : Memory a c) : String :=
  let cells := m.differing.map fun (x, v) => " (" ++ numeralText x ++ " " ++ numeralText v ++ ")"
  "(memval " ++ numeralText m.base ++ String.join cells ++ ")"

def TSort.valueText : (s : TSort) → s.Val → String
  | .bool, b => cond b "true" "false"
  | .bv _, x => numeralText x
  | .mem _ _, m => m.toText

def BvUn.head : BvUn → String
  | neg => "bvneg" | not => "bvnot"

def BvBin.head : BvBin → String
  | add => "bvadd" | sub => "bvsub" | mul => "bvmul" | udiv => "bvudiv" | sdiv => "bvsdiv"
  | urem => "bvurem" | srem => "bvsrem" | smod => "bvsmod" | and => "bvand" | or => "bvor"
  | xor => "bvxor" | shl => "bvshl" | lshr => "bvlshr" | ashr => "bvashr"

def BvCmp.head : BvCmp → String
  | ult => "bvult" | ule => "bvule" | ugt => "bvugt" | uge => "bvuge"
  | slt => "bvslt" | sle => "bvsle" | sgt => "bvsgt" | sge => "bvsge"

def Op.head : Op → String
  | boolLit b => if b then "true" else "false"
  | bvLit x => numeralText x
  | memLit m => m.toText
  | not => "not"
  | implies => "=>"
  | and _ => "and"
  | or _ => "or"
  | xor _ => "xor"
  | eq _ => "="
  | distinct _ _ => "distinct"
  | ite _ => "ite"
  | bvUn op _ => op.head
  | bvBin op _ => op.head
  | bvCmp op _ => op.head
  | concat _ _ => "concat"
  | extract hi lo _ => "(_ extract " ++ toString hi ++ " " ++ toString lo ++ ")"
  | zeroExtend n _ => "(_ zero_extend " ++ toString n ++ ")"
  | signExtend n _ => "(_ sign_extend " ++ toString n ++ ")"
  | select _ _ => "select"
  | store _ _ => "store"
  | func name _ _ => name

/-- The sorts of an operator, which tell apart operators of one head. -/
def Op.signature (f : Op) : String :=
  String.join (f.dom.map fun s => s.toText ++ " ") ++ f.ran.toText

/-- A head alone, or in brackets with the texts of its arguments. -/
def applyText (head : String) : List String → String
  | [] => head
  | args => "(" ++ head ++ " " ++ " ".intercalate args ++ ")"

namespace Spine

/-- The head and the texts of the arguments, the last one first. -/
def parts {d : List TSort} {r : TSort} : Spine d r → String × List String
  | const n _ => (n, [])
  | op f => (f.head, [])
  | app f x =>
    let (head, args) := f.parts
    let (inner, innerArgs) := x.parts
    (head, applyText inner innerArgs.reverse :: args)

/-- One step of the hash: mix in a byte. -/
def hashByte (h : UInt64) (b : UInt8) : UInt64 := (h ^^^ b.toUInt64) * 0x100000001b3

def hashText (h : UInt64) (s : String) : UInt64 := s.toUTF8.foldl hashByte h

def hashStart : UInt64 := 0xcbf29ce484222325

/-- The hash of a head behind which the bracket and the hashes of the arguments follow. -/
def openHash {d : List TSort} {r : TSort} : Spine d r → UInt64 × Bool
  | const n _ => (hashText hashStart (n ++ "("), true)
  | op f => (hashText hashStart (f.head ++ "("), true)
  | app f x =>
    let (h, first) := f.openHash
    let inner := hashText x.openHash.1 ")"
    (hashText h ((if first then "" else ",") ++ hexPadded 16 inner.toNat), false)

def hash {s : TSort} (t : Term s) : UInt64 := hashText t.openHash.1 ")"

/-- Numbers for distinct subterms: a subterm is known by its head and the numbers of its
arguments. -/
abbrev Numbering := Std.HashMap (String × List Nat) Nat

def Numbering.number (seen : Numbering) (key : String × List Nat) : Nat × Numbering :=
  match seen[key]? with
  | some n => (n, seen)
  | none => (seen.size, seen.insert key seen.size)

/-- Number the arguments below a spine; the key names the spine itself. -/
def numberParts {d : List TSort} {r : TSort} :
    Spine d r → Numbering → (String × List Nat) × Numbering
  | const n s, seen => (("c" ++ s.toText ++ " " ++ n, []), seen)
  | op f, seen => (("o" ++ f.signature ++ " " ++ f.head, []), seen)
  | app f x, seen =>
    let ((head, args), seen) := f.numberParts seen
    let (key, seen) := x.numberParts seen
    let (n, seen) := seen.number key
    ((head, n :: args), seen)

/-- The number of distinct subterms. -/
def distinctSize {s : TSort} (t : Term s) : Nat :=
  let (key, seen) := t.numberParts {}
  (seen.number key).2.size

/-- The number of nodes beyond which a term is not written out. -/
def sizeLimit : Nat := 1500

def toText {s : TSort} (t : Term s) : String :=
  let n := t.size
  if n > sizeLimit then
    "<big tree=" ++ toString n ++ " dag=" ++ toString t.distinctSize ++ " h=" ++
      hexPadded 16 t.hash.toNat ++ ">"
  else
    let (head, args) := t.parts
    applyText head args.reverse

end Spine

def SomeTerm.toText (t : SomeTerm) : String := t.2.toText

end Precond
