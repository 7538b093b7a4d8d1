import Precond.Constraint.Basic
import Precond.Flow.Graph
import Precond.Limits
import Precond.Policy.Basic
import Precond.Term.Print
import Std.Data.HashMap

/-! The environment of a program under analysis: its policies, the terms its variables stand for, new
names, and where the walk is. All changes are made through the operations of this module. -/

namespace Precond

open IR Precond.Flow

/-- Names with a running number, told apart from those of other supplies by a name in front. -/
structure NameSupply where
  space : Option String
  next : Nat
  deriving DecidableEq, Repr, Inhabited

/-- A new name; the number rises even where the name is not used. -/
def NameSupply.fresh (s : NameSupply) (name : String) : String × NameSupply :=
  let numbered := name ++ "_" ++ toString s.next
  let full := match s.space with
    | none | some "" => numbered
    | some space => space ++ "." ++ numbered
  (full, { s with next := s.next + 1 })

/-- Where a walk is. An inlined callee is walked in a frame of its own. -/
structure Frame where
  /-- The preconditions of block copies that are settled. -/
  preconds : Std.HashMap (String × Unroll) Constr
  /-- The subroutine and the number of the postcondition that `preconds` is for. -/
  root : Option (String × Nat)
  graph : Option Graph
  retPost : Option Constr
  targets : Table String Constr
  block : Option String
  pred : Option String
  unroll : Unroll

def Frame.start : Frame := ⟨{}, none, none, none, [], none, none, []⟩

/-- A frame for an inlined callee. -/
def Frame.nested (f : Frame) : Frame :=
  { f with preconds := {}, root := none, targets := [], pred := none, unroll := [] }

structure Env where
  arch : Arch
  subs : List Sub
  rules : List CallRule
  fallback : Option CallRule
  /-- The jumps that are forced to be taken or not. -/
  reach : Table String Bool
  sideRules : List SideRule
  unrollBound : Int
  freshen : Bool
  useInputRegs : Bool
  stack : Int × Int
  heap : Int × Int
  renames : Table String String
  names : NameSupply
  vars : Table Var SomeTerm
  inits : Table Var SomeTerm
  called : Table String (Term .bool)
  funcs : Table String FuncDecl
  handlers : Table String Handler
  frame : Frame
  inlining : List String
  weakenings : List Weakening
  /-- Whether a walk has been attached, so that expressions can be evaluated. -/
  attached : Bool

/-- An environment without bindings and with the standard policies. -/
def Env.start (arch : Arch) (subs : List Sub) : Env where
  arch := arch
  subs := subs
  rules := .inline [] :: CallRule.standard
  fallback := some .default
  reach := []
  sideRules := []
  unrollBound := Limits.unrollBound
  freshen := false
  useInputRegs := true
  stack := Limits.stack
  heap := Limits.heap
  renames := []
  names := ⟨none, 0⟩
  vars := []
  inits := []
  called := []
  funcs := []
  handlers := []
  frame := .start
  inlining := []
  weakenings := []
  attached := false

/-- Changes of an environment, kept also when they end in a fault. -/
abbrev EnvM := EStateM Fault Env

def initFront : String := "init_"

def calledFront : String := "called_"

namespace Env

def ofExcept {α} : Except Fault α → EnvM α
  | .ok x => return x
  | .error f => throw f

/-- A new name from the supply. -/
def newName (name : String) : EnvM String := do
  let e ← get
  let (full, names) := e.names.fresh name
  set { e with names }
  return full

/-- The name itself, or a new one if names are freshened. -/
def constName (name : String) : EnvM String := do
  if (← get).freshen then newName name else return name

/-- A constant of its own for a name and a type. -/
def const (name : String) (type : Ty) : EnvM SomeTerm := do
  let s ← ofExcept type.sort
  return ⟨s, .const name s⟩

/-- The term of a variable; a variable without one gets a constant. -/
def mkVar (v : Var) : EnvM SomeTerm := do
  match (← get).vars.lookup v with
  | some t => return t
  | none =>
    let t ← const (← constName v.name) v.type
    modify fun e => { e with vars := Table.put e.vars v t }
    return t

def getVar (v : Var) : EnvM SomeTerm := do
  match (← get).vars.lookup v with
  | some t => return t
  | none => throw (.translation (.unbound v.name))

def addVar (v : Var) (t : SomeTerm) : EnvM Unit :=
  modify fun e => { e with vars := Table.put e.vars v t }

def findVar? (e : Env) (name : String) : Option Var := (Table.keys e.vars).find? (·.name == name)

/-- Give a variable back what it stood for. -/
def restoreVar (v : Var) (before : Option SomeTerm) (e : Env) : Env :=
  match before with
  | some t => { e with vars := Table.put e.vars v t }
  | none => { e with vars := Table.without e.vars v }

/-- The term of a variable at entry; a variable without one gets a constant. -/
def mkInitVar (v : Var) : EnvM SomeTerm := do
  match (← get).inits.lookup v with
  | some t => return t
  | none =>
    let t ← const (← constName (initFront ++ v.name)) v.type
    modify fun e => { e with inits := Table.put e.inits v t }
    return t

def getInitVar (v : Var) : EnvM SomeTerm := do
  match (← get).inits.lookup v with
  | some t => return t
  | none => throw (.translation (.unbound (initFront ++ v.name)))

/-- A constant that has not been used before. -/
def fresh (name : String) (type : Ty) : EnvM SomeTerm := do
  const (← newName name) type

def canonical (e : Env) (name : String) : String := (e.renames.lookup name).getD name

/-- The declaration of a function name; the first one stays. -/
def declare (name : String) (dom : List TSort) (ran : TSort) : EnvM FuncDecl := do
  match (← get).funcs.lookup name with
  | some f => return f
  | none =>
    let f : FuncDecl := ⟨name, dom, ran⟩
    modify fun e => { e with funcs := Table.put e.funcs name f }
    return f

/-- The flag that says that a function has been called. -/
def getCalled (name : String) : EnvM (Term .bool) := do
  let name := (← get).canonical name
  match (← get).called.lookup name with
  | some t => return t
  | none =>
    let t : Term .bool := .const (← constName (calledFront ++ name)) .bool
    modify fun e => { e with called := Table.put e.called name t }
    return t

def findSub? (e : Env) (l : Label) : Option Sub := findCallee? e.subs l

/-- The rule for calls of a subroutine: the first that applies, chosen once. -/
def handler (s : Sub) : EnvM Handler := do
  let e ← get
  match e.handlers.lookup s.tid with
  | some h => return h
  | none =>
    match e.rules.find? (·.applies e.arch s) with
    | some rule => keep ⟨rule, s⟩
    | none =>
      match e.fallback with
      | some rule => keep ⟨rule, s⟩
      | none => throw .noDefaultSpec
where
  keep (h : Handler) : EnvM Handler := do
    modify fun e => { e with handlers := Table.put e.handlers s.tid h }
    return h

def precond? (e : Env) (tid : String) (u : Unroll) : Option Constr := e.frame.preconds[(tid, u)]?

def addPrecond (tid : String) (u : Unroll) (c : Constr) (e : Env) : Env :=
  { e with frame := { e.frame with preconds := e.frame.preconds.insert (tid, u) c } }

def note (kind : WeakeningKind) (tid detail : String) : EnvM Unit :=
  modify fun e => { e with weakenings := e.weakenings ++ [⟨kind, tid, detail⟩] }

/-- Whether an address lies between two bounds, both included. -/
def inRange {w : Nat} (bounds : Int × Int) (addr : Term (.bv w)) : Term .bool :=
  .and [.cmp .ule (.numeral w bounds.1) addr, .cmp .ule addr (.numeral w bounds.2)]

def inStack {w : Nat} (e : Env) (addr : Term (.bv w)) : Term .bool := inRange e.stack addr

def inHeap {w : Nat} (e : Env) (addr : Term (.bv w)) : Term .bool := inRange e.heap addr

/-- The stack pointer lies in the stack. -/
def spRange : EnvM (Term .bool) := do
  let sp ← mkVar (← get).arch.sp
  let ⟨_, sp⟩ ← ofExcept sp.sized
  return (← get).inStack sp

/-- The registers that a summarized callee may depend on. -/
def inputRegs (e : Env) : List Var := if e.useInputRegs then e.arch.inputRegs else e.arch.gprs

/-! ### Text -/

def bindingText (b : IR.Var × SomeTerm) : String := b.1.name ++ " -> " ++ b.2.toText

def toText (e : Env) : String :=
  "Env(arch=" ++ e.arch.name ++ ", freshen=" ++ (if e.freshen then "True" else "False") ++
    ", unroll=" ++ toString e.unrollBound ++
    ", vars=[" ++ ", ".intercalate (e.vars.map bindingText) ++ "], cached_blocks=" ++
    toString e.frame.preconds.size ++ ")"

/-- The copies of blocks whose preconditions are settled, sorted by block and counts. -/
def settledKeys (e : Env) : List (String × Flow.Unroll) :=
  e.frame.preconds.keys.mergeSort fun a b => !less b a
where
  lessCounts : Flow.Unroll → Flow.Unroll → Bool
    | _, [] => false
    | [], _ :: _ => true
    | a :: as, b :: bs => a.1 < b.1 || (a.1 = b.1 && (a.2 < b.2 || (a.2 = b.2 && lessCounts as bs)))
  less (a b : String × Flow.Unroll) : Bool := a.1 < b.1 || (a.1 = b.1 && lessCounts a.2 b.2)

end Env

end Precond
