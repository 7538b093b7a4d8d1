import Precond.IR.Print
import Precond.Term.Access
import Precond.Term.Word
import Precond.Walk.Basic

/-! From expressions to terms. Each part of an expression is offered to a watcher before it is
translated; the watchers of this module are the side rules of an environment, which answer with
conditions on the terms in force at that point. -/

namespace Precond.Walk

open IR

/-- The term of an expression, with the conditions that the watcher gave for its parts. -/
def translateWith (side : Side) (watch : Exp → Walk (List Hook)) : Exp → Walk (SomeTerm × List Hook)
  | e@(.var v) => do
    let hs ← watch e
    return (← on side (Env.getVar v), hs)
  | e@(@Exp.lit w x) => do
    let hs ← watch e
    if w = 0 then throw .illSorted
    return (⟨.bv w, .op (.bvLit x)⟩, hs)
  | e@(.bin op l r) => do
    let hs ← watch e
    let (x, hx) ← translateWith side watch l
    let (y, hy) ← translateWith side watch r
    return (← Term.binary op x y, hs ++ hx ++ hy)
  | e@(.un op a) => do
    let hs ← watch e
    let (x, hx) ← translateWith side watch a
    return (← Term.unary op x, hs ++ hx)
  | e@(.cast kind width a) => do
    let hs ← watch e
    let (x, hx) ← translateWith side watch a
    return (← Term.castTo kind width x, hs ++ hx)
  | e@(.load mem addr endian size) => do
    let hs ← watch e
    let (m, hm) ← translateWith side watch mem
    let (a, ha) ← translateWith side watch addr
    return (← Term.load m a size endian, hs ++ hm ++ ha)
  | e@(.store mem addr value endian size) => do
    let hs ← watch e
    let (m, hm) ← translateWith side watch mem
    let (a, ha) ← translateWith side watch addr
    let (v, hv) ← translateWith side watch value
    return (← Term.storeWord m a v size endian, hs ++ hm ++ ha ++ hv)
  | e@(.ite cond yes no) => do
    let hs ← watch e
    let (c, hc) ← translateWith side watch cond
    let (y, hy) ← translateWith side watch yes
    let (n, hn) ← translateWith side watch no
    return (← Term.choose c y n, hs ++ hc ++ hy ++ hn)
  | e@(.extract hi lo a) => do
    let hs ← watch e
    let (x, hx) ← translateWith side watch a
    return (← Term.extractBits hi lo x, hs ++ hx)
  | e@(.concat l r) => do
    let hs ← watch e
    let (x, hx) ← translateWith side watch l
    let _ ← ofExcept (x.word "concat")
    let (y, hy) ← translateWith side watch r
    return (← Term.concatWords x y, hs ++ hx ++ hy)
  | e@(.letIn v value body) => do
    let hs ← watch e
    let (x, hx) ← translateWith side watch value
    let (y, hy) ← binding side v x (translateWith side watch body)
    return (y, hs ++ hx ++ hy)
  | e@(.unknown _ type) => do
    let hs ← watch e
    return (← on side (Env.fresh "unknown" type), hs)

/-- The term of an expression. -/
def translate (side : Side) (e : Exp) : Walk SomeTerm :=
  return (← translateWith side (fun _ => return []) e).1

/-- The term of an expression that is used as a condition. -/
def condition (side : Side) (e : Exp) : Walk (Term .bool) := do
  (← translate side e).condition

def divisions : List BinOp := [.udiv, .sdiv, .umod, .smod]

/-- The address and size of a read or write of the given kind. -/
def accessed? (access : Access) : Exp → Option (Exp × Int)
  | .load _ a _ n => if access = .load then some (a, n) else none
  | .store _ a _ _ n => if access = .store then some (a, n) else none
  | _ => none

def accessName : Access → String
  | .load => "load"
  | .store => "store"

/-- Both ends of an access lie in the stack, or both in the heap. -/
def validEnds {w : Nat} (e : Env) (first : Term (.bv w)) (size : Int) : Term .bool :=
  let last := Term.bin .add first (.numeral w (size / 8 - 1))
  .or [.and [e.inStack first, e.inStack last], .and [e.inHeap first, e.inHeap last]]

/-- The condition that a side rule gives for an expression. -/
def sideCondition (side : Side) (e : Exp) : SideRule → Walk (Option Hook)
  | .nonNull access duty =>
    match accessed? access e with
    | none => return none
    | some (addr, _) => do
      let ⟨_, a⟩ ← (← translate side addr).sized
      return some ⟨duty, .before, "non-null " ++ accessName access ++ ": " ++ addr.toText, a.nonZero⟩
  | .validAccess access duty =>
    match accessed? access e with
    | none => return none
    | some (addr, size) => do
      let ⟨_, a⟩ ← (← translate side addr).sized
      return some ⟨duty, .before, "valid " ++ accessName access ++ ": " ++ addr.toText,
        validEnds (← env side) a size⟩
  | .nonZeroDivisor =>
    match e with
    | .bin op _ divisor => do
      if divisions.contains op then
        let ⟨_, d⟩ ← (← translate side divisor).sized
        return some ⟨.verify, .before, "non-zero divisor: " ++ divisor.toText, d.nonZero⟩
      else return none
    | _ => return none
  | .offsetRead width distance =>
    match e with
    | .load (.var mem) addr endian size => do
      let a ← translate side addr
      let orig ← Term.load (← translate side (.var mem)) a size endian
      let m ← on .mod (Env.mkVar mem)
      if width = 0 then throw .illSorted
      let moved := Term.bin .add (← a.as (.bv width)) (.numeral width distance)
      let mod ← Term.load m ⟨_, moved⟩ size endian
      return some ⟨.assume, .before, "offset read: " ++ addr.toText, ← orig.eq mod⟩
    | _ => return none
  | .custom on duty placement cond name => do
    if e.kind = on then return some ⟨duty, placement, name, ← condition side cond⟩
    else return none

/-- The conditions that side rules give for an expression. -/
def sideConditions (side : Side) (rules : List SideRule) (e : Exp) : Walk (List Hook) := do
  match rules with
  | [] => return []
  | r :: rest =>
    let h ← sideCondition side e r
    return h.toList ++ (← sideConditions side rest e)

/-- The term of an expression with the conditions of the environment's side rules. -/
def translateChecked (side : Side) (e : Exp) : Walk (SomeTerm × List Hook) := do
  modify fun w => { w with translations := w.translations + 1 }
  let rules := (← env side).sideRules
  translateWith side (sideConditions side rules) e

/-- The conditions of a duty and a placement. -/
def select (hooks : List Hook) (duty : Duty) (placement : Placement) : List Hook :=
  hooks.filter fun h => h.duty = duty && h.placement = placement

end Precond.Walk
