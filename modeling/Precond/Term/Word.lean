import Precond.Term.Build

/-! The word operators of lifted code on terms. Operands have one width, except that the amount of a
shift is fitted to the width of what is shifted; comparisons give one bit. -/

namespace Precond.Term

open IR

/-- What kind of operator it is, and the operator on terms. -/
inductive BinRule
  | arith (op : BvBin)
  | shift (op : BvBin)
  | compare (f : {w : Nat} → Term (.bv w) → Term (.bv w) → Term .bool)

def binRule : BinOp → BinRule
  | .add => .arith .add
  | .sub => .arith .sub
  | .mul => .arith .mul
  | .udiv => .arith .udiv
  | .sdiv => .arith .sdiv
  | .umod => .arith .urem
  | .smod => .arith .srem
  | .and => .arith .and
  | .or => .arith .or
  | .xor => .arith .xor
  | .shl => .shift .shl
  | .lshr => .shift .lshr
  | .ashr => .shift .ashr
  | .eq => .compare eq
  | .ne => .compare ne
  | .ult => .compare (cmp .ult)
  | .ule => .compare (cmp .ule)
  | .slt => .compare slt
  | .sle => .compare sle

/-- An amount in the width of what is shifted. A wider amount is first cut down to that width, which
as an amount leaves nothing. -/
def fitShift {v : Nat} (w : Nat) (amount : Term (.bv v)) : Except Fault (Term (.bv w)) :=
  if h : v = w then .ok (h ▸ amount)
  else if v < w then SomeTerm.as (.bv w) ⟨_, zeroExtend (w - v) amount⟩
  else do
    let limit := numeral v w
    (← extract (w - 1) 0 (ite (cmp .ult amount limit) amount limit)).as (.bv w)

def operatorName (op : String) : String := "operator '" ++ op ++ "'"

def binary (op : BinOp) (x y : SomeTerm) : Except Fault SomeTerm := do
  let ⟨w, x⟩ ← x.word (operatorName op.toText)
  let ⟨v, y⟩ ← y.word (operatorName op.toText)
  match binRule op with
  | .shift f => return ⟨_, bin f x (← fitShift w y)⟩
  | .arith f =>
    if h : v = w then return ⟨_, bin f x (h ▸ y)⟩
    else throw (.translation (.operandWidths op w v))
  | .compare f =>
    if h : v = w then return ⟨_, ofTruth (f x (h ▸ y))⟩
    else throw (.translation (.operandWidths op w v))

def unary (op : UnOp) (x : SomeTerm) : Except Fault SomeTerm := do
  let ⟨_, x⟩ ← x.word (operatorName op.toText)
  match op with
  | .neg => return ⟨_, un .neg x⟩
  | .not => return ⟨_, un .not x⟩

def castTo (kind : CastKind) (width : Int) (x : SomeTerm) : Except Fault SomeTerm := do
  let ⟨size, x⟩ ← x.word (kind.toText ++ " cast")
  match kind with
  | .unsigned =>
    if width = size then return ⟨_, x⟩
    else if width < size then extract (width - 1) 0 x
    else return ⟨_, zeroExtend (width - size).toNat x⟩
  | .signed =>
    if width = size then return ⟨_, x⟩
    else if width < size then extract (width - 1) 0 x
    else return ⟨_, signExtend (width - size).toNat x⟩
  | .high =>
    if width > size then throw (.translation (.castWidth kind width size))
    else extract (size - 1) (size - width) x
  | .low =>
    if width > size then throw (.translation (.castWidth kind width size))
    else extract (width - 1) 0 x

def extractBits (hi lo : Int) (x : SomeTerm) : Except Fault SomeTerm := do
  let ⟨size, x⟩ ← x.word "extract"
  if 0 ≤ lo ∧ lo ≤ hi ∧ hi < size then extract hi lo x
  else throw (.translation (.extractRange hi lo size))

def concatWords (x y : SomeTerm) : Except Fault SomeTerm := do
  let ⟨_, x⟩ ← x.word "concat"
  let ⟨_, y⟩ ← y.word "concat"
  return ⟨_, concat x y⟩

/-- A choice between two terms of one sort by a word that is or is not zero. -/
def choose (c x y : SomeTerm) : Except Fault SomeTerm :=
  if h : y.1 = x.1 then do return ⟨_, ite (← c.condition) x.2 (h ▸ y.2)⟩
  else .error (.translation (.iteSorts x.1 y.1))

end Precond.Term
