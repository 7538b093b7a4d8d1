import Precond.IR.Program
import Precond.Text.Digit

/-! Text of lifted code: the reading form, and the term form that also tells the types. -/

namespace Precond.IR

open Text

def Ty.toText : Ty → String
  | word w => "u" ++ toString w
  | memory a c => "mem[" ++ toString a ++ ", u" ++ toString c ++ "]"

/-- The name and type of a variable. -/
def Var.typed (v : Var) : String := v.name ++ ":" ++ v.type.toText

def BinOp.toText : BinOp → String
  | add => "+" | sub => "-" | mul => "*" | udiv => "/" | sdiv => "s/" | umod => "%" | smod => "s%"
  | shl => "<<" | lshr => ">>" | ashr => "a>>" | and => "&" | or => "|" | xor => "^"
  | eq => "=" | ne => "<>" | ult => "<" | ule => "<=" | slt => "s<" | sle => "s<="

def BinOp.all : List BinOp :=
  [add, sub, mul, udiv, sdiv, umod, smod, shl, lshr, ashr, and, or, xor, eq, ne, ult, ule, slt, sle]

def UnOp.toText : UnOp → String
  | neg => "-" | not => "~"

/-- The head of a negation or complement in the term form. -/
def UnOp.head : UnOp → String
  | neg => "neg" | not => "~"

def CastKind.toText : CastKind → String
  | unsigned => "unsigned" | signed => "signed" | high => "high" | low => "low"

def CastKind.all : List CastKind := [unsigned, signed, high, low]

def Endian.toText : Endian → String
  | little => "le" | big => "be"

def Intent.toText : Intent → String
  | input => "in" | output => "out" | both => "both"

def litText {w : Nat} (x : BitVec w) : String := hexNat x.toNat ++ ":" ++ toString w

def Exp.toText : Exp → String
  | var v => v.name
  | lit x => litText x
  | load m a e n => m.toText ++ "[" ++ a.toText ++ ", " ++ e.toText ++ "]:" ++ toString n
  | store m a v e n =>
    m.toText ++ " with [" ++ a.toText ++ ", " ++ e.toText ++ "]:" ++ toString n ++ " <- " ++ v.toText
  | bin op l r => "(" ++ l.toText ++ " " ++ op.toText ++ " " ++ r.toText ++ ")"
  | un op x => op.toText ++ x.toText
  | cast k w x => k.toText ++ ":" ++ toString w ++ "[" ++ x.toText ++ "]"
  | ite c y n => "if " ++ c.toText ++ " then " ++ y.toText ++ " else " ++ n.toText
  | extract hi lo x => "extract:" ++ toString hi ++ ":" ++ toString lo ++ "[" ++ x.toText ++ "]"
  | concat l r => l.toText ++ "." ++ r.toText
  | unknown d t => "unknown[" ++ d ++ "]:" ++ t.toText
  | letIn v x b => "let " ++ v.name ++ " = " ++ x.toText ++ " in " ++ b.toText

/-- The term form, in which variables and binders tell their types. -/
def Exp.toTerm : Exp → String
  | var v => v.typed
  | lit x => litText x
  | load m a e n => "(load " ++ m.toTerm ++ " " ++ a.toTerm ++ " " ++ e.toText ++ " " ++ toString n ++ ")"
  | store m a v e n =>
    "(store " ++ m.toTerm ++ " " ++ a.toTerm ++ " " ++ v.toTerm ++ " " ++ e.toText ++ " " ++
      toString n ++ ")"
  | bin op l r => "(" ++ op.toText ++ " " ++ l.toTerm ++ " " ++ r.toTerm ++ ")"
  | un op x => "(" ++ op.head ++ " " ++ x.toTerm ++ ")"
  | cast k w x => "(cast " ++ k.toText ++ " " ++ toString w ++ " " ++ x.toTerm ++ ")"
  | ite c y n => "(ite " ++ c.toTerm ++ " " ++ y.toTerm ++ " " ++ n.toTerm ++ ")"
  | extract hi lo x =>
    "(extract " ++ toString hi ++ " " ++ toString lo ++ " " ++ x.toTerm ++ ")"
  | concat l r => "(concat " ++ l.toTerm ++ " " ++ r.toTerm ++ ")"
  | unknown d t => "(unknown " ++ d ++ " " ++ t.toText ++ ")"
  | letIn v x b => "(let " ++ v.typed ++ " " ++ x.toTerm ++ " " ++ b.toTerm ++ ")"

def Label.toText : Label → String
  | direct tid => tid
  | indirect e => "(" ++ e.toText ++ ")"

def Jump.toText (j : Jump) : String :=
  let action := match j.kind with
    | .goto t => " goto " ++ t.toText
    | .call t r =>
      " call " ++ t.toText ++
        (match r with
          | some r => " with return " ++ r.toText
          | none => " with noreturn")
    | .ret t => " return " ++ t.toText
    | .interrupt n r => " interrupt " ++ hexInt n ++ " return " ++ r
  j.tid ++ ": when " ++ j.cond.toText ++ action

def Elt.toText : Elt → String
  | phi p =>
    let values := p.values.map fun v => "[" ++ v.2.toText ++ ", " ++ v.1 ++ "]"
    p.tid ++ ": " ++ p.lhs.name ++ " := phi(" ++ ", ".intercalate values ++ ")"
  | define d => d.tid ++ ": " ++ d.lhs.name ++ " := " ++ d.rhs.toText
  | jump j => j.toText

def Blk.toText (b : Blk) : String :=
  b.tid ++ ":\n" ++ "\n".intercalate (b.elts.map fun e => "  " ++ e.toText)

def Sub.toText (s : Sub) : String :=
  "sub " ++ s.name ++ "(" ++ ", ".intercalate (s.args.map (·.var.name)) ++ ")\n" ++
    "\n".intercalate (s.blks.map Blk.toText)

/-- Sorted by name and type. -/
def sortByTyped (vars : List Var) : List Var :=
  vars.mergeSort fun a b => !(b.typed < a.typed)

end Precond.IR
