import Precond.Term.Build

/-! Reading and writing words in memories of smaller cells. A word occupies consecutive cells, the
lowest address holding its low end or its high end. -/

namespace Precond.Term

open IR

variable {a c w : Nat}

/-- The address `i` cells further. -/
def offset (addr : Term (.bv w)) (i : Nat) : Term (.bv w) :=
  if i = 0 then addr else bin .add addr (numeral w i)

/-- The number of cells that an access of so many bits takes. -/
def cellCount (cell : Nat) (size : Int) : Except Fault Int :=
  if size % cell = 0 then .ok (size / cell) else .error (.translation (.cellWidth size cell))

/-- The concatenation of words, the first one highest. -/
def concatAll : SomeTerm → List SomeTerm → Except Fault SomeTerm
  | x, [] => .ok x
  | x, y :: ys => do
    let ⟨_, x⟩ ← x.word "concat"
    let ⟨_, y⟩ ← y.word "concat"
    concatAll ⟨_, concat x y⟩ ys

/-- The word of `size` bits at an address. -/
def load (mem addr : SomeTerm) (size : Int) (endian : Endian) : Except Fault SomeTerm := do
  let ⟨a, c, mem⟩ ← mem.memory "memory access"
  let count ← cellCount c size
  let _ ← addr.word "load address"
  let addr ← addr.as (.bv a)
  let cells : List SomeTerm := (List.range count.toNat).map fun i => ⟨_, select mem (offset addr i)⟩
  let ordered := match endian with
    | .little => cells.reverse
    | .big => cells
  match ordered with
  | [] => throw .illSorted
  | x :: xs => concatAll x xs

/-- The memory after writing `pieces` to consecutive cells. -/
def storeCells (addr : Term (.bv a)) : Nat → List (Term (.bv c)) → Term (.mem a c) → Term (.mem a c)
  | _, [], mem => mem
  | i, v :: vs, mem => storeCells addr (i + 1) vs (store mem (offset addr i) v)

/-- The cells of a word by ascending address. -/
def pieces (c : Nat) (value : SomeTerm) (size count : Nat) (endian : Endian) :
    Except Fault (List (Term (.bv c))) :=
  if count = 1 then do return [← value.as (.bv c)]
  else do
    let ⟨_, value⟩ ← value.word "stored value"
    (List.range count).mapM fun i => do
      let lo := match endian with
        | .little => i * c
        | .big => size - (i + 1) * c
      (← extract (lo + c - 1) lo value).as (.bv c)

/-- The memory after writing a word of `size` bits at an address. -/
def storeWord (mem addr value : SomeTerm) (size : Int) (endian : Endian) :
    Except Fault SomeTerm := do
  let ⟨a, c, mem⟩ ← mem.memory "memory access"
  let count ← cellCount c size
  let _ ← addr.word "store address"
  let ⟨w, word⟩ ← value.word "stored value"
  if size ≠ w then throw (.translation (.storeWidth w size))
  let addr ← addr.as (.bv a)
  let cells ← pieces c ⟨_, word⟩ w count.toNat endian
  return ⟨_, storeCells addr 0 cells mem⟩

end Precond.Term
