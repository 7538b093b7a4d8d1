import Precond.Fault
import Precond.Sexp.Reader
import Precond.Table

/-! Reading expressions from s-expressions. A scope gives the variables that names stand for; the
body of a local binding is read in the scope that the binding extends.
Reading is also done with one dictionary of the names in scope (`Exp.readText`), which is changed where
a local binding is entered and changed back where the binding is left, also by a fault. -/

namespace Precond.IR

/-- The variables in scope, the innermost first. -/
abbrev Scope := List (String × Var)

/-- Split a token at its first colon. -/
def splitColon (token : String) : String × Option String :=
  let cs := token.toList
  let name := String.ofList (cs.takeWhile (· != ':'))
  match cs.dropWhile (· != ':') with
  | [] => (name, none)
  | _ :: rest => (name, some (String.ofList rest))

namespace Reader

def symbol : Sexp → Except ExpFault String
  | .symbol name => .ok name
  | x => .error (.noSymbol x.toText)

def integer (x : Sexp) : Except ExpFault Int :=
  match x with
  | .int i => .ok i
  | .symbol name => (Text.integer? name).elim (.error (.noInteger x.toText)) .ok
  | _ => .error (.noInteger x.toText)

/-- A name with a width, such as `t:32`. -/
def typedName (x : Sexp) : Except ExpFault Var := do
  let token ← symbol x
  let (name, width) := splitColon token
  let width := width.getD ""
  if width.isEmpty || !width.toList.all Text.isDigit then .error (.noTypedName token)
  else
    match Text.decimal? width with
    | some w => .ok ⟨name, .word w⟩
    | none => .error .badWidth

def endian (x : Sexp) : Except ExpFault Endian := do
  let token ← symbol x
  if token = "le" then .ok .little
  else if token = "be" then .ok .big
  else .error (.noEndian token)

/-- How many digits of 30 bits are set aside for `2 ^ width`. -/
def powerDigits (width : Nat) : Nat := 1 + (width + 29) / 30

/-- Why `2 ^ width` cannot be had. A digit takes four bytes and a number 24 more. -/
def powerFault? (width : Nat) : Option ExpFault :=
  if Limits.integerDigits < powerDigits width then some .overflow
  else if Limits.memory < 24 + 4 * powerDigits width then some .outOfMemory
  else none

/-- A literal `value:width`, whose value is taken modulo `2 ^ width`. -/
def literal (token value width : String) : Except ExpFault Exp :=
  match Text.integer? value, Text.decimal? width with
  | some v, some (.ofNat w) =>
    match powerFault? w with
    | some f => .error f
    | none => .ok (.lit (BitVec.ofInt w v))
  | _, _ => .error (.badLiteral token)

def atom (scope : Scope) (token : String) : Except ExpFault Exp :=
  match splitColon token with
  | (value, some width) => literal token value width
  | (_, none) =>
    match scope.lookup token with
    | some v => .ok (.var v)
    | none => .error (.unknownVariable token)

inductive Form
  | bin (op : BinOp)
  | un (op : UnOp)
  | load | store | cast | ite | extract | concat | unknown | letIn

def Form.arity : Form → Nat
  | bin _ | concat | unknown => 2
  | un _ => 1
  | load => 4
  | store => 5
  | cast | ite | extract | letIn => 3

/-- The forms by their heads. -/
def forms : List (String × Form) :=
  BinOp.all.map (fun op => (op.toText, Form.bin op)) ++
    [(UnOp.neg.head, .un .neg), (UnOp.not.head, .un .not), ("load", .load), ("store", .store),
      ("cast", .cast), ("ite", .ite), ("extract", .extract), ("concat", .concat),
      ("unknown", .unknown), ("let", .letIn)]

/-- What reads an expression in a scope. -/
abbrev Read := Scope → Except ExpFault Exp

/-- The expression of a form. Each operand comes as data and as what reads it. -/
def build (scope : Scope) : Form → List (Sexp × Read) → Except ExpFault Exp
  | .bin op, [l, r] => do return .bin op (← l.2 scope) (← r.2 scope)
  | .un op, [x] => do return .un op (← x.2 scope)
  | .load, [m, a, e, n] => do
    return .load (← m.2 scope) (← a.2 scope) (← endian e.1) (← integer n.1)
  | .store, [m, a, v, e, n] => do
    return .store (← m.2 scope) (← a.2 scope) (← v.2 scope) (← endian e.1) (← integer n.1)
  | .cast, [k, w, x] => do
    let kind ← symbol k.1
    match CastKind.all.find? (·.toText == kind) with
    | some kind => return .cast kind (← integer w.1) (← x.2 scope)
    | none => .error (.unknownCast kind)
  | .ite, [c, y, n] => do return .ite (← c.2 scope) (← y.2 scope) (← n.2 scope)
  | .extract, [hi, lo, x] => do
    return .extract (← integer hi.1) (← integer lo.1) (← x.2 scope)
  | .concat, [l, r] => do return .concat (← l.2 scope) (← r.2 scope)
  | .unknown, [d, w] => do return .unknown (← symbol d.1) (.word (← integer w.1))
  | .letIn, [name, value, body] => do
    let v ← typedName name.1
    return .letIn v (← value.2 scope) (← body.2 ((v.name, v) :: scope))
  | _, _ => .error .unreadable

/-- The expression of a head and operands. -/
def form (scope : Scope) (head : Sexp) (operands : List (Sexp × Read)) : Except ExpFault Exp := do
  let name ← symbol head
  match forms.lookup name with
  | none => .error (.unknownOperator name)
  | some f =>
    if operands.length ≠ f.arity then .error (.arity name f.arity operands.length)
    else build scope f operands

end Reader

mutual

/-- The expression of a datum. -/
def Exp.ofSexp (x : Sexp) (scope : Scope) : Except ExpFault Exp :=
  match x with
  | .symbol token => Reader.atom scope token
  | .list (head :: operands) => Reader.form scope head (Exp.readers operands)
  | x => .error (.noExpression x.toText)

/-- What reads each datum. -/
def Exp.readers : List Sexp → List (Sexp × Reader.Read)
  | [] => []
  | x :: xs => (x, fun scope => Exp.ofSexp x scope) :: Exp.readers xs

end

/-- The expression that a text writes. -/
def Exp.ofText (scope : Scope) (text : String) : Except ExpFault Exp :=
  match Sexp.ofText? text with
  | some x => Exp.ofSexp x scope
  | none => .error .unreadable

/-! ### With one dictionary -/

/-- Reading with a dictionary. Changes of it are kept also when they end in a fault. -/
abbrev ReadM (α : Type) := EStateM ExpFault (Table String Var) α

namespace ReadM

def ofExcept {α : Type} : Except ExpFault α → ReadM α
  | .ok a => return a
  | .error f => throw f

instance : MonadLift (Except ExpFault) ReadM := ⟨ofExcept⟩

/-- Run an action and change the dictionary right afterwards, however the action ends. -/
def restoring {α : Type} (f : Table String Var → Table String Var) (act : ReadM α) : ReadM α :=
  fun d =>
    match act d with
    | .ok a d => .ok a (f d)
    | .error e d => .error e (f d)

/-- Give a name back what it stood for. -/
def giveBack (name : String) (outer : Option Var) (d : Table String Var) : Table String Var :=
  match outer with
  | some v => Table.put d name v
  | none => Table.without d name

/-- Run an action while the name of a variable stands for the variable. -/
def binding {α : Type} (v : Var) (act : ReadM α) : ReadM α := do
  let outer := (← get).lookup v.name
  modify fun d => Table.put d v.name v
  restoring (giveBack v.name outer) act

open Reader

def atom (token : String) : ReadM Exp := do Reader.atom (← get) token

/-- The expression of a form. Each operand comes as data and as what reads it. -/
def build : Form → List (Sexp × ReadM Exp) → ReadM Exp
  | .bin op, [l, r] => do return .bin op (← l.2) (← r.2)
  | .un op, [x] => do return .un op (← x.2)
  | .load, [m, a, e, n] => do return .load (← m.2) (← a.2) (← endian e.1) (← integer n.1)
  | .store, [m, a, v, e, n] => do
    return .store (← m.2) (← a.2) (← v.2) (← endian e.1) (← integer n.1)
  | .cast, [k, w, x] => do
    let kind ← symbol k.1
    match CastKind.all.find? (·.toText == kind) with
    | some kind => return .cast kind (← integer w.1) (← x.2)
    | none => throw (.unknownCast kind)
  | .ite, [c, y, n] => do return .ite (← c.2) (← y.2) (← n.2)
  | .extract, [hi, lo, x] => do return .extract (← integer hi.1) (← integer lo.1) (← x.2)
  | .concat, [l, r] => do return .concat (← l.2) (← r.2)
  | .unknown, [d, w] => do return .unknown (← symbol d.1) (.word (← integer w.1))
  | .letIn, [name, value, body] => do
    let v ← typedName name.1
    return .letIn v (← value.2) (← binding v body.2)
  | _, _ => throw .unreadable

/-- The expression of a head and operands. -/
def form (head : Sexp) (operands : List (Sexp × ReadM Exp)) : ReadM Exp := do
  let name ← symbol head
  match forms.lookup name with
  | none => throw (.unknownOperator name)
  | some f =>
    if operands.length ≠ f.arity then throw (.arity name f.arity operands.length)
    else build f operands

end ReadM

mutual

/-- The expression of a datum, by the dictionary. -/
def Exp.readSexp : Sexp → ReadM Exp
  | .symbol token => ReadM.atom token
  | .list (head :: operands) => ReadM.form head (Exp.readSexps operands)
  | x => throw (.noExpression x.toText)

/-- What reads each datum by the dictionary. -/
def Exp.readSexps : List Sexp → List (Sexp × ReadM Exp)
  | [] => []
  | x :: xs => (x, Exp.readSexp x) :: Exp.readSexps xs

end

/-- The expression that a text writes, by a dictionary that starts as the scope. -/
def Exp.readText (scope : Scope) (text : String) : Except ExpFault Exp :=
  match Sexp.ofText? text with
  | some x =>
    match Exp.readSexp x scope with
    | .ok e _ => .ok e
    | .error f _ => .error f
  | none => .error .unreadable

end Precond.IR
