import Precond.Walk.Call

/-! Blocks, backwards. An assignment substitutes, a conditional jump branches between the precondition
of its target and that of what follows it, and a call takes the effect its rule gives it. Where a
jump or a phi cannot be modelled exactly, a weakening is noted. -/

namespace Precond.Walk

open IR

def assign (side : Side) (post : Constr) (lhs : Var) (rhs : Exp) : Walk Constr := do
  let (value, hooks) ← translateChecked side rhs
  let old ← on side (Env.mkVar lhs)
  if value.1 ≠ old.1 then throw (.translation (.assignSorts lhs.name value.1 old.1))
  let post ← guard (select hooks .assume .after) (select hooks .verify .after) post
  let post ← substitute post [old] [value]
  guard (select hooks .assume .before) (select hooks .verify .before) post

/-- A phi takes the value along the block that control comes from; if that block is not known, the
first value. -/
def visitPhi (side : Side) (post : Constr) (p : Phi) : Walk Constr := do
  match (← env side).frame.pred.bind p.along? with
  | some value => assign side post p.lhs value
  | none =>
    on side (Env.note .phi p.tid (p.lhs.name ++ " takes its first incoming value"))
    assign side post p.lhs p.first

/-- The precondition of a named target, if the walk has one. -/
def targetPre (side : Side) (l : Label) (default : Constr) : Walk Constr := do
  match l with
  | .direct tid => return ((← env side).frame.targets.lookup tid).getD default
  | .indirect _ => return default

/-- What holds where the subroutine returns to, if it is known. -/
def returnPre (side : Side) (post : Constr) : Walk Constr := do
  return (← env side).frame.retPost.getD post

/-- A callee that is not part of the program. -/
def unknownCallee (tid : String) : Sub :=
  ⟨String.ofList (tid.toList.dropWhile (· == '@')), tid, none, [], []⟩

/-- What expands a callee's body. -/
abbrev Expand := Side → Constr → Sub → Walk Constr

/-- The precondition of a call whose callee is to be expanded. A callee without blocks leaves what
follows the call as it is; one that is being expanded already is summarized. -/
def inlineCall (expand : Expand) (side : Side) (callee : Sub) (after : Constr) (tid : String) :
    Walk Constr := do
  if callee.blks.isEmpty then
    on side (Env.note .unknownCallee tid callee.name)
    return after
  else if (← env side).inlining.contains callee.tid then
    on side (Env.note .recursiveInline tid callee.name)
    match (← env side).fallback with
    | some rule => summarize side rule callee after tid
    | none => throw .callsNothing
  else
    modifyEnv side fun e => { e with inlining := callee.tid :: e.inlining }
    restoring side (fun e => { e with inlining := e.inlining.drop 1 })
      (inFrame side (expand side after callee))

def visitCall (expand : Expand) (side : Side) (post : Constr) (tid : String) (target : Label)
    (ret : Option Label) : Walk Constr := do
  let after ← match ret with
    | none => returnPre side post
    | some l => targetPre side l post
  match target with
  | .indirect _ =>
    on side (Env.note .indirectCall tid target.toText)
    return after
  | .direct name =>
    let callee ← match (← env side).findSub? target with
      | some s => pure s
      | none =>
        on side (Env.note .unknownCallee tid name)
        pure (unknownCallee name)
    let h ← on side (Env.handler callee)
    match h.rule with
    | .inline _ => inlineCall expand side callee after tid
    | rule => summarize side rule h.callee after tid

/-- The precondition where a jump leads. -/
def jumpPre (expand : Expand) (side : Side) (post : Constr) (j : Jump) : Walk Constr :=
  match j.kind with
  | .goto (.indirect a) => do
    on side (Env.note .indirectJump j.tid (Label.indirect a).toText)
    return post
  | .goto target => targetPre side target post
  | .call target ret => visitCall expand side post j.tid target ret
  | .ret _ => returnPre side post
  | .interrupt _ ret => targetPre side (.direct ret) post

/-- The target of a jump that is forced, and whether it is taken. -/
def forced? (e : Env) (j : Jump) : Option (String × Bool) :=
  match e.reach.lookup j.tid, j.kind with
  | some taken, .goto (.direct target) => some (target, taken)
  | _, _ => none

/-- A forced jump adds the goal that it goes the way it is forced to. -/
def forceJump (side : Side) (post : Constr) (j : Jump) (target : String) (taken : Bool) :
    Walk Constr := do
  let cond ← condition side j.cond
  if taken then
    let after ← targetPre side (.direct target) post
    mkClause [] [← mkGoal ("take " ++ j.tid) cond (some j.tid), after]
  else mkClause [] [← mkGoal ("skip " ++ j.tid) cond.not (some j.tid), post]

def visitJump (expand : Expand) (side : Side) (post : Constr) (j : Jump) : Walk Constr := do
  match forced? (← env side) j with
  | some (target, taken) => forceJump side post j target taken
  | none =>
    let after ← jumpPre expand side post j
    if j.cond = Exp.always then return after
    else
      let (cond, hooks) ← translateChecked side j.cond
      let pre ← mkBranch j.tid (← cond.condition) after post
      guard (select hooks .assume .before ++ select hooks .assume .after)
        (select hooks .verify .before ++ select hooks .verify .after) pre

def visitElt (expand : Expand) (side : Side) (post : Constr) : Elt → Walk Constr
  | .define d => assign side post d.lhs d.rhs
  | .phi p => visitPhi side post p
  | .jump j => visitJump expand side post j

/-- The elements of a list from the last one to the first. -/
def visitElts (expand : Expand) (side : Side) (post : Constr) : List Elt → Walk Constr
  | [] => return post
  | e :: rest => do visitElt expand side (← visitElts expand side post rest) e

/-- The precondition of a block, kept for the copy of the block that the walk is at. -/
def visitBlock (expand : Expand) (side : Side) (post : Constr) (b : Blk) : Walk Constr := do
  let e ← env side
  match e.precond? b.tid e.frame.unroll with
  | some c => return c
  | none =>
    modifyEnv side fun e => { e with frame := { e.frame with block := some b.tid } }
    let pre ← visitElts expand side post b.elts
    modifyEnv side fun e => e.addPrecond b.tid e.frame.unroll pre
    return pre

end Precond.Walk
