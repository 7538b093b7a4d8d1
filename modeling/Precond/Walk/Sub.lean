import Precond.Walk.Block

/-! Subroutines, backwards. A copy of a block is settled after the copies it leads to along forward
edges. A back edge leads to the copy of the loop header that has been come back to once more, until
the unroll bound is reached; there the edge is cut, and nothing is asked behind it.

The settling of copies of blocks from a stack. A copy on top of the stack waits there while
forward successors of it are not settled; these come above it, in order. Only a back edge or a callee
starts another stack. -/

namespace Precond.Walk

open IR Precond.Flow

/-- What gives the precondition of a copy of a block. -/
abbrev Settle := Side → Constr → String → Unroll → Walk Constr

/-- The precondition behind a back edge. -/
def loopPre (settle : Settle) (side : Side) (post : Constr) (header : String) (u : Unroll) :
    Walk Constr := do
  let bound := (← env side).unrollBound
  let depth := u.count header + 1
  if bound ≤ depth then
    on side (Env.note .loopBound header
      ("back-edge cut after " ++ toString bound ++ " unrolling(s)"))
    trivial
  else settle side post header (u.withCount header depth)

/-- The preconditions of the successors of a block whose forward successors are settled. -/
def successorPres (settle : Settle) (side : Side) (g : Graph) (post : Constr) (tid : String)
    (u : Unroll) : List String → Walk (Table String Constr)
  | [] => return []
  | s :: rest => do
    let pre ← if g.isBackEdge tid s then loopPre settle side post s u
      else present ((← env side).precond? s (g.restrict u s))
    return (s, pre) :: (← successorPres settle side g post tid u rest)

/-- What holds behind the last jump of a block. -/
def trailing (side : Side) (g : Graph) (targets : Table String Constr) (tid : String) :
    Walk Constr := do
  match (g.fallthrough.lookup tid).join with
  | some next => present (targets.lookup next)
  | none => present (← env side).frame.retPost

/-- Settle a copy of a block whose forward successors are settled. -/
def settleBlock (settle : Settle) (expand : Expand) (side : Side) (g : Graph) (post : Constr)
    (tid : String) (u : Unroll) : Walk Constr := do
  let targets ← successorPres settle side g post tid u (g.succsOf tid)
  let after ← trailing side g targets tid
  let b ← present (g.blocks.lookup tid)
  modifyEnv side fun e =>
    { e with frame := { e.frame with targets, pred := g.predFor tid u, unroll := u } }
  visitBlock expand side after b

/-- Settle the forward successors of a block, in order. -/
def settleForward (settle : Settle) (side : Side) (g : Graph) (post : Constr) (u : Unroll) :
    List String → Walk Unit
  | [] => return ()
  | s :: rest => do
    let _ ← settle side post s (g.restrict u s)
    settleForward settle side g post u rest

/-- Walk a subroutine from the postcondition at its return, by what settles a copy of a block. The
preconditions that are kept are those for the same subroutine and postcondition. -/
def enterSub (settle : Settle) : Expand := fun side post sub => do
  modifyEnv side fun e => { e with attached := true }
  let g ← Graph.ofSub sub
  for v in sortByName sub.vars do
    let _ ← on side (Env.mkVar v)
  let before := (← env side).frame
  let root := some (sub.tid, post.id)
  let kept := if before.root = root then before.preconds else {}
  modifyEnv side fun e =>
    { e with frame := { e.frame with
        preconds := kept, root, graph := some g, retPost := some post } }
  restoring side
    (fun e => { e with frame := { e.frame with graph := before.graph, retPost := before.retPost } })
    (settle side post g.entry [])

/-- Settle a copy of a block after its forward successors. The first argument bounds the depth. -/
def settleNode : Nat → Settle
  | 0, _, _, _, _ => throw .outOfFuel
  | fuel + 1, side, post, tid, u => do
    let g ← present (← env side).frame.graph
    let u := g.restrict u tid
    match (← env side).precond? tid u with
    | some c => return c
    | none =>
      settleForward (settleNode fuel) side g post u (g.forward tid)
      settleBlock (settleNode fuel) (enterSub (settleNode fuel)) side g post tid u

/-- More than the number of copies of blocks of a subroutine. -/
def copyBound (bound : Int) (s : Sub) : Nat :=
  (s.blks.length + 1) * (bound.toNat + 2).pow s.blks.length

/-- More than the depth of any walk: each subroutine is expanded at most once below itself, and no
copy of a block is met below itself. -/
def depthBound (e : Env) (s : Sub) : Nat :=
  (s :: e.subs).foldl (fun n c => n + copyBound e.unrollBound c) 0 * 2 + e.subs.length + 2

/-- The precondition of a subroutine for a postcondition at its return. -/
def visitSub (side : Side) (post : Constr) (sub : Sub) : Walk Constr := do
  enterSub (settleNode (depthBound (← env side) sub)) side post sub

/-- What expands callees for a block that is visited by itself. -/
def expandAny : Expand := fun side post sub => visitSub side post sub

/-- The precondition of a block by itself. -/
def visitBlockAlone (side : Side) (post : Constr) (b : Blk) : Walk Constr := do
  modifyEnv side fun e => { e with attached := true }
  visitBlock expandAny side post b

/-! ### With a stack -/

/-- The copies of successors that have no precondition. -/
def pending (e : Env) (g : Graph) (u : Unroll) (succs : List String) : List (String × Unroll) :=
  (succs.map fun s => (s, g.restrict u s)).filter fun c => (e.precond? c.1 c.2).isNone

/-- Settle the copies on a stack, in at most so many steps. -/
def workOff (settle : Settle) (side : Side) (g : Graph) (post : Constr) :
    Nat → List (String × Unroll) → Walk Unit
  | _, [] => return ()
  | 0, _ :: _ => throw .outOfFuel
  | fuel + 1, (t, u) :: stack => do
    let e ← env side
    if (e.precond? t u).isSome then workOff settle side g post fuel stack
    else match pending e g u (g.forward t) with
      | [] =>
        let _ ← settleBlock settle (enterSub settle) side g post t u
        workOff settle side g post fuel stack
      | c :: cs => workOff settle side g post fuel (c :: cs ++ (t, u) :: stack)

/-- More steps than a stack takes for a copy with so many levels below it. -/
def stepBound (g : Graph) (levels : Nat) : Nat := (g.blocks.length + 2).pow levels

/-- Settle a copy of a block from a stack. Each stack is given `more` steps than it is known to
take. -/
def settleStacked (more : Nat) : Nat → Settle
  | 0, _, _, _, _ => throw .outOfFuel
  | fuel + 1, side, post, tid, u => do
    let g ← present (← env side).frame.graph
    let u := g.restrict u tid
    workOff (settleStacked more fuel) side g post (stepBound g (fuel + 1) + more) [(tid, u)]
    present ((← env side).precond? tid u)

end Precond.Walk
