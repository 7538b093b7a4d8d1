import Precond.Fault
import Precond.Table

/-! The control-flow graph of a subroutine. A block leads to the blocks its jumps name and, unless
its last jump is always taken, to the block that follows. Back edges are the edges into a block that
a depth-first search from the entry is still below; each belongs to the loop of its target, which
holds the blocks that reach the edge without passing the target. -/

namespace Precond.Flow

open IR

structure Graph where
  sub : Sub
  entry : String
  blocks : Table String Blk
  succs : Table String (List String)
  preds : Table String (List String)
  fallthrough : Table String (Option String)
  backEdges : List (String × String)
  loops : Table String (List String)

/-- Whether control may run past the jumps of a block. -/
def fallsThrough (b : Blk) : Bool :=
  match b.jumps.getLast? with
  | none => true
  | some j => j.cond ≠ Exp.always

/-- The block in which a jump continues, if it is named. -/
def Jump.target? (j : Jump) : Option String :=
  match j.kind with
  | .goto (.direct tid) => some tid
  | .call _ (some (.direct tid)) => some tid
  | .interrupt _ tid => some tid
  | _ => none

/-- Each block of a list with the block behind it that control may run into. -/
def fallthroughs : List Blk → List (Blk × Option String)
  | [] => []
  | [b] => [(b, none)]
  | b :: c :: rest =>
    (b, if fallsThrough b then some c.tid else none) :: fallthroughs (c :: rest)

/-- The blocks a block leads to, each once, the one behind it last. -/
def targets (blocks : Table String Blk) (b : Blk) (next : Option String) : List String :=
  let next := next.toList.filter (· ≠ "")
  ((b.jumps.filterMap Jump.target? ++ next).filter ((Table.keys blocks).contains ·)).eraseDups

namespace Search

/-- What a depth-first search has found so far. -/
structure State where
  visited : List String
  back : List (String × String)

/-- Search below a block; `path` holds it and the blocks the search is below. -/
def visit (succs : String → List String) : Nat → List String → String → State → State
  | 0, _, _, s => s
  | fuel + 1, path, node, s =>
    (succs node).foldl (fun s child =>
      if path.contains child then { s with back := (node, child) :: s.back }
      else if s.visited.contains child then s
      else visit succs fuel (child :: path) child { s with visited := child :: s.visited }) s

end Search

/-- The edges into a block that the search is below. -/
def findBackEdges (succs : String → List String) (blocks : Nat) (entry : String) :
    List (String × String) :=
  (Search.visit succs (blocks + 1) [entry] entry ⟨[entry], []⟩).back

/-- Add the predecessors of the waiting blocks, except below the header, until nothing waits. -/
def gather (preds : String → List String) (header : String) :
    Nat → List String → List String → List String
  | 0, _, body => body
  | _ + 1, [], body => body
  | fuel + 1, node :: work, body =>
    if node = header then gather preds header fuel work body
    else
      let new := (preds node).eraseDups.filter (!body.contains ·)
      gather preds header fuel (new ++ work) (body ++ new)

/-- The blocks that reach a back edge without passing its target, and the target. -/
def naturalLoop (preds : String → List String) (blocks : Nat) (latch header : String) :
    List String :=
  gather preds header (blocks + 2) [latch] [header, latch].eraseDups

namespace Graph

def succsOf (g : Graph) (tid : String) : List String := (g.succs.lookup tid).getD []

def predsOf (g : Graph) (tid : String) : List String := (g.preds.lookup tid).getD []

def loopOf (g : Graph) (header : String) : List String := (g.loops.lookup header).getD []

def isBackEdge (g : Graph) (src dst : String) : Bool := g.backEdges.contains (src, dst)

/-- The sources of the back edges into a block. -/
def latches (g : Graph) (header : String) : List String :=
  (g.backEdges.filter (·.2 = header)).map (·.1)

/-- Add the loop of a back edge to that of its header. -/
def addLoop (preds : String → List String) (blocks : Nat) (loops : Table String (List String))
    (edge : String × String) : Table String (List String) :=
  let body := naturalLoop preds blocks edge.1 edge.2
  Table.put loops edge.2 (((loops.lookup edge.2).getD [edge.2]) ++ body).eraseDups

def ofSub (sub : Sub) : Except Fault Graph :=
  match sub.blks with
  | [] => .error (.noEntry sub.name)
  | first :: _ =>
    let blocks := sub.blks.foldl (fun t b => Table.put t b.tid b) ([] : Table String Blk)
    let follow := fallthroughs sub.blks
    let outs := follow.map fun (b, next) => (b.tid, targets blocks b next)
    let succs := outs.foldl (fun t e => Table.put t e.1 e.2) ([] : Table String (List String))
    let preds := outs.foldl (fun t e => e.2.foldl (fun t d => Table.adjust t d (· ++ [e.1])) t)
      ((Table.keys blocks).map (·, []))
    let succsOf := fun tid => (succs.lookup tid).getD []
    let predsOf := fun tid => (preds.lookup tid).getD []
    let back := findBackEdges succsOf blocks.length first.tid
    .ok {
      sub
      entry := first.tid
      blocks
      succs
      preds
      fallthrough := follow.foldl (fun t e => Table.put t e.1.tid e.2) []
      backEdges := back
      loops := back.foldl (addLoop predsOf blocks.length) [] }

end Graph

/-! ### Unrolling contexts

A copy of a block is told by how many times control has come back to the headers of the loops around
it; a header without an entry has not been come back to. -/

/-- Headers with their counts, sorted by header. -/
abbrev Unroll := List (String × Nat)

namespace Unroll

def count (u : Unroll) (header : String) : Nat := (u.lookup header).getD 0

/-- Set the count of a header. -/
def withCount (u : Unroll) (header : String) (n : Nat) : Unroll :=
  match u with
  | [] => [(header, n)]
  | e :: rest =>
    if e.1 = header then (header, n) :: rest
    else if header < e.1 then (header, n) :: e :: rest
    else e :: withCount rest header n

end Unroll

namespace Graph

/-- The counts that still matter in a block: those of the loops around it. -/
def restrict (g : Graph) (u : Unroll) (tid : String) : Unroll :=
  u.filter fun e => (g.loopOf e.1).contains tid

/-- The block that control comes from into a copy of a block, if there is only one. A header that
has not been come back to is entered from outside its loop. -/
def predFor (g : Graph) (tid : String) (u : Unroll) : Option String :=
  let candidates :=
    if (g.loops.lookup tid).isSome then
      (g.predsOf tid).filter fun p => g.isBackEdge p tid == decide (0 < u.count tid)
    else g.predsOf tid
  match candidates with
  | [p] => some p
  | _ => none

/-- The successors along edges that are not back edges. -/
def forward (g : Graph) (tid : String) : List String :=
  (g.succsOf tid).filter fun s => !g.isBackEdge tid s

end Graph

end Precond.Flow
