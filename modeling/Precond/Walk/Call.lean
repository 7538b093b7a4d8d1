import Precond.Walk.Formula
import Precond.Walk.Translate

/-! What a call does when its callee is not expanded: a summary replaces outputs by unknown functions
of the inputs, marks the callee as called and, where returns pop their address, moves the stack
pointer. -/

namespace Precond.Walk

open IR

/-- The stack pointer moved past the return address. -/
def poppedSp (side : Side) : Walk (SomeTerm × SomeTerm) := do
  let e ← env side
  let sp ← on side (Env.mkVar e.arch.sp)
  let s ← e.arch.sp.type.sort
  match s with
  | .bv w =>
    return (sp, ⟨_, .bin .add (← sp.as (.bv w)) (.numeral w (e.arch.addrSize / 8 : Nat))⟩)
  | _ => throw (.memoryWidth e.arch.sp.name)

/-- What every return changes: old terms with new ones. -/
def returnEffects (side : Side) (callee : Sub) : Walk (List (SomeTerm × SomeTerm)) := do
  let popped ← if (← env side).arch.popsReturnAddr then do pure [← poppedSp side] else pure []
  let called ← on side (Env.getCalled callee.name)
  return popped ++ [(⟨_, called⟩, ⟨_, .truth true⟩)]

def replaceAll (c : Constr) (pairs : List (SomeTerm × SomeTerm)) : Walk Constr :=
  substitute c (pairs.map (·.1)) (pairs.map (·.2))

/-- Each output becomes a function, named for callee and output, of the inputs. -/
def summary (side : Side) (callee : Sub) (inputs outputs : List Var) (post : Constr) :
    Walk Constr := do
  let args ← inputs.mapM fun v => on side (Env.mkVar v)
  let sorts ← inputs.mapM fun v => ofExcept v.type.sort
  let name := (← env side).canonical callee.name
  let changed ← outputs.mapM fun out => do
    let ran ← out.type.sort
    let f ← on side (Env.declare (name ++ "_" ++ out.name) sorts ran)
    let old ← on side (Env.mkVar out)
    return (old, ← f.apply args)
  let effects ← returnEffects side callee
  replaceAll post <| effects.foldl (fun pairs p =>
    if pairs.any fun q => p.1.same q.1 then pairs else pairs ++ [p]) changed

/-- The first argument of a call: in a register, or on the stack above the return address. -/
def firstArg (side : Side) : Walk SomeTerm := do
  let e ← env side
  match e.arch.inputRegs with
  | r :: _ => on side (Env.mkVar r)
  | [] =>
    let (_, slot) ← poppedSp side
    let m ← on side (Env.mkVar e.arch.mem)
    Term.load m slot e.arch.addrSize e.arch.endian

def withIntents (s : Sub) (intents : List Intent) : List Var :=
  (s.args.filter fun a => intents.contains a.intent).map (·.var)

/-- The effect of a contract: `pre` is established, and `post` holds of arbitrary new values of the
registers that callees may change, next to the values at the call. -/
def contract (side : Side) (callee : Sub) (name pre post : String) (after : Constr) :
    Walk Constr := do
  let arch := (← env side).arch
  let current ← arch.registers.mapM fun r => do return (r, ← on side (Env.mkVar r))
  let chaos ← arch.callerSaved.mapM fun r => do
    return (r, ← on side (Env.fresh (name ++ "_" ++ r.name) r.type))
  let preDecls := current.foldl (fun t (r, x) => Table.put t r.name x) ([] : Smt.Decls)
  let postDecls := current.foldl (fun t (r, x) =>
    Table.put t r.name ((chaos.lookup r).getD x)) ([] : Smt.Decls)
  let postDecls := current.foldl (fun t (r, x) => Table.put t (initFront ++ r.name) x) postDecls
  let subPre ← formula pre preDecls
  let subPost ← formula post postDecls
  let olds ← chaos.mapM fun (r, _) => present (current.lookup r)
  let chaosed ← substitute after olds (chaos.map (·.2))
  let returned ← replaceAll chaosed (← returnEffects side callee)
  mkClause [] [subPre, ← mkClause [subPost] [returned]]

/-- The precondition of a call at `tid` under a rule that does not expand the callee. -/
def summarize (side : Side) (rule : CallRule) (callee : Sub) (post : Constr) (tid : String) :
    Walk Constr := do
  let arch := (← env side).arch
  match rule with
  | .verifierError => mkGoal (callee.name ++ " is not reached") (.truth false) (some tid)
  | .verifierAssume =>
    let cond ← (← firstArg side).condition
    let assumption ← mkGoal (CallRule.assumeFunction ++ " at " ++ tid) cond (some tid)
    mkClause [assumption] [post]
  | .verifierNondet =>
    match arch.returnReg with
    | none => throw .noWidth
    | some ret =>
      let value ← on side (Env.fresh (callee.name ++ "_ret") ret.type)
      substitute post [← on side (Env.mkVar ret)] [value]
  | .empty =>
    let called ← on side (Env.getCalled callee.name)
    substitute post [⟨_, called⟩] [⟨_, .truth true⟩]
  | .argTerms =>
    summary side callee (withIntents callee [.input, .both]) (withIntents callee [.output, .both])
      post
  | .raxOut | .chaosRax =>
    match arch.returnReg with
    | none => throw .noWidth
    | some ret => summary side callee (← env side).inputRegs [ret] post
  | .chaosCallerSaved => summary side callee (← env side).inputRegs arch.callerSaved post
  | .contract name pre post' => contract side callee name pre post' post
  | .default | .inline _ => replaceAll post (← returnEffects side callee)

end Precond.Walk
