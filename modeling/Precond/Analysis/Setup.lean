import Precond.Compare.Basic
import Precond.Options
import Precond.Pattern.Reader

/-! Setting an analysis up from options: the environments of the programs and the constraint to be
proved. In a comparison the first program takes for granted what the second has to verify. -/

namespace Precond.Analysis

open IR Walk

/-- What a program is analysed as. -/
inductive Role
  | single | orig | mod
  deriving DecidableEq, Repr, Inhabited

/-- What an analysis has to prove, and the subroutines it is about. -/
structure Setup where
  pre : Constr
  orig : Sub
  mod : Option Sub

def ofConfig {α} : Except ConfigFault α → Except Fault α
  | .ok x => .ok x
  | .error why => .error (.config why)

def findSub (p : Program) (name : String) : Except Fault Sub :=
  (p.find? name).elim (.error (.config (.functionMissing name))) .ok

/-- The subroutines to expand: those whose name or address a pattern matches. -/
def inlined (p : Program) (pattern : Option String) : Except Fault (List String) :=
  match pattern with
  | none | some "" => .ok []
  | some text =>
    match Pattern.ofText text with
    | .error why => .error (why.bare?.getD (.config (.badPattern text)))
    | .ok pat =>
      let chosen := p.subs.filter fun s =>
        pat.matchesAll s.name || s.addr.any fun a => pat.matchesAll (Text.hexInt a)
      .ok (chosen.map (·.tid))

def rules (o : Options) : Except Fault (List CallRule) := do
  let contracts := o.contracts.map fun c => CallRule.contract c.name c.pre c.post
  let trip := if o.tripAsserts then [CallRule.verifierError] else []
  let named ← if o.rules.isEmpty then pure CallRule.standard else o.rules.mapM CallRule.ofName
  return contracts ++ trip ++ named

/-- The side rules of a program. -/
def sideRules (o : Options) (role : Role) : List SideRule :=
  let duty := if role = .orig then Duty.assume else .verify
  (if o.checkNullDerefs then [.nonNull .load duty, .nonNull .store duty] else []) ++
    (if o.checkInvalidDerefs then [.validAccess .load duty, .validAccess .store duty] else []) ++
    (if o.checkDivByZero && role ≠ .orig then [.nonZeroDivisor] else [])

/-- The name space of the second program. -/
def modSpace : String := "mod"

def environment (p : Program) (o : Options) (role : Role) (renames : Table String String) :
    Except Fault Env := do
  let freshen := decide (role = .mod)
  let tids ← inlined p o.inline
  return { Env.start p.arch p.subs with
    rules := .inline tids :: (← rules o)
    sideRules := sideRules o role
    unrollBound := o.unrollBound
    freshen
    useInputRegs := o.useInputRegs
    stack := o.stackRange.getD Limits.stack
    heap := o.heapRange.getD Limits.heap
    renames
    names := ⟨if freshen then some modSpace else none, 0⟩ }

/-- The postcondition holds from the entry on, under what is known and assumed there. -/
def single (o : Options) (s : Sub) : Walk Constr := do
  let inputs ← snapshot .orig (varsOf (← env .orig) s)
  let sp ← stackPointerGoal .orig
  let ptrs ← if o.pointerRegs.isEmpty then pure [] else do pure [← pointers o.pointerRegs]
  let given ← if o.precond.isEmpty then pure [] else do pure [← formulaFor .orig o.precond]
  let post ← if o.postcond.isEmpty then trivial else formulaFor .orig o.postcond
  let pre ← visitSub .orig post s
  mkClause (inputs ++ [sp] ++ ptrs ++ given) [pre]

/-- The output registers of a comparison, all of which must exist. -/
def outputs (o : Options) (s : Sub) : Walk (List Var) := do
  let found := varsNamed (← env .orig) s o.comparePostRegs
  let missing := o.comparePostRegs.filter fun n => !found.any (·.name == n)
  if missing.isEmpty then return found
  else throw <| .config <| .unknownOutputs (missing.eraseDups.mergeSort fun a b => !(b < a))

/-- The text of a condition, or the one that always holds. -/
def orTrue (text : String) : String := if text.isEmpty then "true" else text

/-- The comparators that options ask for. -/
def comparators (o : Options) (orig mod : Sub) : Walk (List Comparator) := do
  let regs ← if o.comparePostRegs.isEmpty then pure [] else do
    let shared ← PairRel.sharedVars orig mod
    pure [Comparator.registers shared (← outputs o orig)]
  let formulas := if o.postcond.isEmpty && o.precond.isEmpty then []
    else [Comparator.formulas (orTrue o.postcond) (orTrue o.precond)]
  let calls := if o.compareFuncCalls then [Comparator.calls] else []
  let relational := calls ++ regs ++ formulas
  return [Comparator.stackPointers] ++
    (if o.memOffset.isSome then [] else [Comparator.memories]) ++ relational ++
    (if o.pointerRegs.isEmpty then [] else [Comparator.pointers o.pointerRegs]) ++
    (if relational.isEmpty then [Comparator.emptyPost] else [])

/-- The old names of renamed subroutines; a name given by the options wins. -/
def renames (o : Options) (orig mod : Program) : Table String String :=
  let found := if o.rewriteAddresses then Compare.renamed orig.subs mod.subs else []
  o.renames.foldl (fun t (name, old) => Table.put t name old) found

/-- Run a walk that gives the constraint of an analysis. -/
def build (act : Walk Constr) (w : World) (done : Constr → Setup) :
    Except Fault (Setup × World) :=
  match act w with
  | .ok pre w => .ok (done pre, w)
  | .error f _ => .error f

def setupSingle (o : Options) (p : Program) : Except Fault (Setup × World) := do
  let s ← findSub p o.func
  let e ← environment p o .single []
  build (single o s) (World.start e (Env.start p.arch [])) (Setup.mk · s none)

def setupPair (o : Options) (orig mod : Program) : Except Fault (Setup × World) := do
  let s ← findSub orig o.func
  let t ← findSub mod o.func
  let e ← environment orig o .orig []
  let e' ← environment mod o .mod (renames o orig mod)
  let offset := match o.memOffset with
    | some d => [SideRule.offsetRead orig.arch.addrSize d]
    | none => []
  let w := World.start { e with sideRules := e.sideRules ++ offset } e'
  build (do Compare.subs (← comparators o s t) s t) w (Setup.mk · s (some t))

/-- The constraint that options ask about one program or two. -/
def setup (o : Options) (programs : List Program) : Except Fault (Setup × World) := do
  ofConfig (o.validateFor programs.length)
  match programs with
  | [p] => setupSingle o p
  | [p, q] => setupPair o p q
  | ps => throw (.config (.programCount ps.length))

end Precond.Analysis
