import Precond.IR.Reader
import Precond.Json.Text
import Precond.Load.Draft

/-! From drafts to programs: names are resolved in the scope of their subroutine, expressions are
read, and elements without a name of their own get a new one. -/

namespace Precond

open IR

/-- Loading counts the names it makes up. -/
abbrev Load (α : Type) := StateT Nat (Except Fault) α

namespace Load

def fail {α : Type} (why : ProgramFault) : Load α := throw (.config (.program why))

/-- A name of its own for an element without one. -/
def newTid : Load String := do
  let n ← get
  set (n + 1)
  return "%" ++ Text.hexPadded 8 n

/-- The given name, unless it is absent or empty. -/
def tidOr : Option String → Load String
  | none | some "" => newTid
  | some tid => return tid

def exp (scope : Scope) (text : String) : Except Fault Exp :=
  match Exp.ofText scope text with
  | .ok e => .ok e
  | .error why => .error (why.bare?.getD (.config (.program (.exp text why))))

/-- The registers and declared variables of a subroutine. No variable has the name of a register. -/
def scope (arch : Arch) (sub : String) (vars : List (String × Int)) : Except Fault Scope :=
  vars.foldlM (fun scope (name, width) =>
    if (arch.reg? name).isSome then .error (.config (.program (.shadowsRegister sub name)))
    else .ok (scope ++ [(name, ⟨name, .word width⟩)]))
    (arch.registers.map fun v => (v.name, v))

def lookup (scope : Scope) (place name : String) : Load Var :=
  match scope.lookup name with
  | some v => return v
  | none => fail (.unknownVariable place name)

def label (scope : Scope) : Draft.Label → Load Label
  | .direct tid => return .direct tid
  | .indirect text => do return .indirect (← exp scope text)

def labelOpt (scope : Scope) : Option Draft.Label → Load (Option Label)
  | none => return none
  | some l => do return some (← label scope l)

def phi (scope : Scope) (place : String) (d : Draft.Phi) : Load Phi := do
  let lhs ← lookup scope place d.lhs
  let values ← d.values.mapM fun (pred, text) => do return (pred, ← exp scope text)
  let tid ← tidOr d.tid
  if h : values ≠ [] then return ⟨lhs, values, tid, h⟩
  else throw .missingEntry

def define (scope : Scope) (place : String) (d : Draft.Def) : Load Def := do
  let lhs ← lookup scope place d.lhs
  let rhs ← exp scope d.rhs
  return ⟨lhs, rhs, ← tidOr d.tid⟩

/-- The action of a jump whose target has been read. A return without a target goes to an unknown
address. -/
def jumpKind (arch : Arch) (scope : Scope) (place : String) (d : Draft.Jump)
    (target : Option Label) : Load JumpKind :=
  match d.kind, target with
  | .goto, some t => return .goto t
  | .goto, none => fail (.gotoWithoutTarget place)
  | .call, some t => do return .call t (← labelOpt scope d.ret)
  | .call, none => fail (.callWithoutTarget place)
  | .ret, some t => return .ret t
  | .ret, none => return .ret (.indirect (.unknown "return address" (.word arch.addrSize)))
  | .interrupt, _ =>
    match d.ret with
    | some (.direct tid) => return .interrupt d.number tid
    | _ => fail (.interruptWithoutReturn place)

def jump (arch : Arch) (scope : Scope) (place : String) (d : Draft.Jump) : Load Jump := do
  let cond ← exp scope d.cond
  let tid ← tidOr d.tid
  let target ← labelOpt scope d.target
  return ⟨← jumpKind arch scope place d target, cond, tid⟩

def blk (arch : Arch) (scope : Scope) (sub : String) (d : Draft.Blk) : Load Blk := do
  let place := sub ++ "/" ++ d.tid
  let phis ← d.phis.mapM (phi scope place)
  let defs ← d.defs.mapM (define scope place)
  let jumps ← d.jumps.mapM (jump arch scope place)
  return ⟨d.tid, phis, defs, jumps⟩

def sub (arch : Arch) (d : Draft.Sub) : Load Sub := do
  let scope ← scope arch d.name d.vars
  let blks ← d.blks.mapM (blk arch scope d.name)
  let args ← d.args.mapM fun a => do return (⟨← lookup scope d.name a.var, a.intent⟩ : Arg)
  let tid := match d.tid with
    | none | some "" => "@" ++ d.name
    | some tid => tid
  return ⟨d.name, tid, d.addr, args, blks⟩

def draft (d : Draft.Program) : Load Program := do
  match Arch.ofName? d.arch with
  | none => fail (.unsupportedArch d.arch)
  | some arch => return ⟨arch, ← d.subs.mapM (sub arch)⟩

/-- The draft that data stands for; a text is read as JSON first. -/
def draftOf : Json → Except Fault Draft.Program
  | .str text =>
    match Json.ofText text with
    | .ok j => check j
    | .error .malformed => .error (.config (.program .notJson))
    | .error .longInteger => .error .badDigits
  | j => check j
where
  check (j : Json) : Except Fault Draft.Program :=
    match Draft.Program.check j with
    | .ok d => .ok d
    | .error issues => .error (.config (.program (.shape issues)))

/-- The program that data stands for. -/
def program (j : Json) : Load Program := do draft (← draftOf j)

/-- The architecture of a name. -/
def arch (name : String) : Except Fault Arch :=
  (Arch.ofName? name).elim (.error (.config (.unsupportedArch name))) .ok

/-- The scope of an architecture's registers and a table of further variables with their widths. -/
def tableScope (arch : Arch) (table : Json) : Except Fault Scope :=
  match Draft.Sub.check (.obj [("name", .str "scope"), ("vars", table)]) with
  | .ok d => scope arch d.name d.vars
  | .error issues => .error (.badTable issues)

/-- The programs of several data, whose made-up names are counted together. -/
def programs (js : List Json) : Except Fault (List Program) :=
  (js.mapM program).run' 1

end Load

end Precond
