import Mathlib.Data.Nat.Digits.Defs
import Precond.IR.Exp
import Precond.Term.Sort

/-! Values of lifted code and what its operators make of them: words of a width, with arithmetic
modulo their width, and memories of cells, in which a word occupies consecutive cells. An operation
on values that it is not made for has no value. -/

namespace Precond

open IR

/-- A value with its sort. -/
abbrev Value := (s : TSort) × s.Val

namespace Value

def word {w : Nat} (x : BitVec w) : Value := ⟨.bv w, x⟩

def memory {a c : Nat} (m : Memory a c) : Value := ⟨.mem a c, m⟩

/-- A truth value as a word of one bit. -/
def bit (b : Bool) : Value := word (BitVec.ofBool b)

end Value

/-- The word whose bits are all the same. -/
def fill (w : Nat) (b : Bool) : BitVec w := if b then .allOnes w else 0#w

namespace IR

namespace BinOp

/-- Arithmetic and comparison of words of one width. Division by zero gives all ones, or minus one
or one for signed words; a signed remainder has the sign of the dividend. -/
def onWords {w : Nat} (x y : BitVec w) : BinOp → Option Value
  | add => some (.word (x + y))
  | sub => some (.word (x - y))
  | mul => some (.word (x * y))
  | udiv => some (.word (if y = 0#w then .allOnes w else x / y))
  | sdiv => some (.word
      (if y = 0#w then (if x.msb then 1#w else .allOnes w) else .ofInt w (x.toInt.tdiv y.toInt)))
  | umod => some (.word (x % y))
  | smod => some (.word (.ofInt w (x.toInt.tmod y.toInt)))
  | and => some (.word (x &&& y))
  | or => some (.word (x ||| y))
  | xor => some (.word (x ^^^ y))
  | eq => some (.bit (x == y))
  | ne => some (.bit (x != y))
  | ult => some (.bit (x.toNat < y.toNat))
  | ule => some (.bit (x.toNat ≤ y.toNat))
  | slt => some (.bit (x.toInt < y.toInt))
  | sle => some (.bit (x.toInt ≤ y.toInt))
  | shl | lshr | ashr => none

/-- Shifts, by amounts of any size: an amount that reaches the width leaves nothing, or the sign. -/
def shift {w : Nat} (x : BitVec w) (amount : Nat) : BinOp → Option Value
  | shl => some (.word (if w ≤ amount then 0#w else x <<< amount))
  | lshr => some (.word (if w ≤ amount then 0#w else x >>> amount))
  | ashr => some (.word (if w ≤ amount then fill w x.msb else x.sshiftRight amount))
  | _ => none

def isShift : BinOp → Bool
  | shl | lshr | ashr => true
  | _ => false

def value? (op : BinOp) : Value → Value → Option Value
  | ⟨.bv w, x⟩, ⟨.bv v, y⟩ =>
    if op.isShift then op.shift (w := w) x (BitVec.toNat (w := v) y)
    else if h : v = w then op.onWords (w := w) x (h ▸ y) else none
  | _, _ => none

end BinOp

def UnOp.value? (op : UnOp) : Value → Option Value
  | ⟨.bv _, (x : BitVec _)⟩ => some (.word (match op with
    | neg => -x
    | not => ~~~x))
  | _ => none

/-- A cast keeps the number, as an unsigned or a signed one, or takes the high or the low bits. -/
def CastKind.value? (kind : CastKind) (width : Int) : Value → Option Value
  | ⟨.bv w, (x : BitVec w)⟩ =>
    if 0 ≤ width then
      match kind with
      | unsigned => some (.word (x.setWidth width.toNat))
      | signed => some (.word (BitVec.ofInt width.toNat x.toInt))
      | high =>
        if width ≤ w then some (.word (x.extractLsb' (w - width.toNat) width.toNat)) else none
      | low => if width ≤ w then some (.word (x.setWidth width.toNat)) else none
    else none
  | _ => none

end IR

namespace Value

/-- The bits from `hi` down to `lo`. -/
def extract? (hi lo : Int) : Value → Option Value
  | ⟨.bv w, (x : BitVec w)⟩ =>
    if 0 ≤ lo ∧ lo ≤ hi ∧ hi < w then
      some (.word (x.extractLsb' lo.toNat (hi - lo + 1).toNat))
    else none
  | _ => none

def concat? : Value → Value → Option Value
  | ⟨.bv _, (x : BitVec _)⟩, ⟨.bv _, (y : BitVec _)⟩ => some (.word (x ++ y))
  | _, _ => none

/-- Whether a word differs from zero. -/
def nonZero? : Value → Option Bool
  | ⟨.bv w, (x : BitVec w)⟩ => some (x != 0#w)
  | _ => none

/-- One of two values of one sort. -/
def choose? (c yes no : Value) : Option Value :=
  if yes.1 = no.1 then (nonZero? c).map fun b => if b then yes else no else none

/-- The number of cells that so many bits occupy. -/
def cellCount? (c : Nat) (size : Int) : Option Nat :=
  if size % c = 0 then some (size / c).toNat else none

/-- The numbers in `n` consecutive cells from an address on, by ascending address. -/
def cellsAt {a c : Nat} (m : Memory a c) (x : BitVec a) (n : Nat) : List Nat :=
  (List.range n).map fun i => (m.get (x + BitVec.ofNat a i)).toNat

/-- The cells of a number, lowest first. -/
def inOrder {α : Type} : Endian → List α → List α
  | .little, cells => cells
  | .big, cells => cells.reverse

/-- The word of `size` bits at an address. -/
def load? (endian : Endian) (size : Int) : Value → Value → Option Value
  | ⟨.mem a c, (m : Memory a c)⟩, ⟨.bv a', (x : BitVec a')⟩ => do
    let n ← cellCount? c size
    if h : a' = a then
      if n = 0 then none
      else
        let cells := inOrder endian (cellsAt m (h ▸ x) n)
        return .word (BitVec.ofNat size.toNat (Nat.ofDigits (2 ^ c) cells))
    else none
  | _, _ => none

/-- The memory after writing cells from an address on. -/
def writeCells {a c : Nat} (x : BitVec a) : Nat → List (BitVec c) → Memory a c → Memory a c
  | _, [], m => m
  | i, v :: vs, m => writeCells x (i + 1) vs (m.set (x + BitVec.ofNat a i) v)

/-- The cells that a word is cut into, the low end first. -/
def cellsOf {w : Nat} (c : Nat) (v : BitVec w) (n : Nat) : List (BitVec c) :=
  (List.range n).map fun i => v.extractLsb' (i * c) c

/-- The memory after writing a word of `size` bits at an address. -/
def store? (endian : Endian) (size : Int) : Value → Value → Value → Option Value
  | ⟨.mem a c, (m : Memory a c)⟩, ⟨.bv a', (x : BitVec a')⟩, ⟨.bv w, (v : BitVec w)⟩ => do
    let n ← cellCount? c size
    if h : a' = a then
      if size = w then
        return .memory (writeCells (h ▸ x) 0 (inOrder endian (cellsOf c v n)) m)
      else none
    else none
  | _, _, _ => none

end Value

end Precond
