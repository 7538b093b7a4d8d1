import Precond.Fault
import Precond.Table
import Precond.Term.Basic

/-! Policies: how calls are modelled, which jumps are forced, and which conditions the reads, writes
and divisions of an expression give rise to. Policies are data; the walk gives them their effect. -/

namespace Precond

open IR

/-- A rule for calls of the subroutines it applies to. -/
inductive CallRule
  /-- Expand the callee's body at the call. -/
  | inline (tids : List String)
  | verifierError
  | verifierAssume
  | verifierNondet
  | empty
  | argTerms
  | raxOut
  | chaosRax
  | chaosCallerSaved
  /-- A contract in SMT-LIB text: the call must establish `pre`, afterwards `post` holds. -/
  | contract (name pre post : String)
  | default
  deriving DecidableEq, Repr, Inhabited

namespace CallRule

def errorFunctions : List String := ["__assert_fail", "__VERIFIER_error", "reach_error"]

def assumeFunction : String := "__VERIFIER_assume"

def nondetFront : String := "__VERIFIER_nondet"

/-- Whether a definition of a subroutine writes a variable. -/
def writes (s : Sub) (v : Var) : Bool := s.blks.any fun b => b.defs.any (·.lhs = v)

def startsWith (front name : String) : Bool :=
  name.toList.take front.length == front.toList

/-- Whether a rule applies to a subroutine. -/
def applies (arch : Arch) (s : Sub) : CallRule → Bool
  | inline tids => tids.contains s.tid
  | verifierError => errorFunctions.contains s.name
  | verifierAssume => s.name == assumeFunction
  | verifierNondet => startsWith nondetFront s.name && arch.returnReg.isSome
  | empty => s.blks.isEmpty
  | argTerms => !s.args.isEmpty
  | raxOut => arch.returnReg.any fun r => (r.name == "RAX" || r.name == "EAX") && writes s r
  | chaosRax => arch.name == "x86_64"
  | chaosCallerSaved => !arch.callerSaved.isEmpty
  | contract name _ _ => s.name == name
  | default => true

/-- The rules that can be asked for by name. -/
def named : List (String × CallRule) :=
  [("verifier_error", verifierError), ("verifier_assume", verifierAssume),
    ("verifier_nondet", verifierNondet), ("empty", empty), ("arg_terms", argTerms),
    ("rax_out", raxOut), ("chaos_rax", chaosRax), ("chaos_caller_saved", chaosCallerSaved)]

def ofName (name : String) : Except Fault CallRule :=
  match named.lookup name with
  | some r => .ok r
  | none => .error (.config (.unknownSpec name (named.map (·.1))))

/-- The published name of a rule. -/
def title : CallRule → String
  | inline _ => "spec_inline"
  | contract name _ _ => "user_func_spec:" ++ name
  | default => "spec_default"
  | r => ((named.find? (·.2 = r)).map fun e => "spec_" ++ e.1).getD ""

/-- The rules in force when none are asked for. -/
def standard : List CallRule := [verifierAssume, verifierNondet, empty, chaosCallerSaved]

end CallRule

/-- A rule with the subroutine it was chosen for. -/
structure Handler where
  rule : CallRule
  callee : Sub
  deriving DecidableEq, Repr, Inhabited

inductive Access
  | load | store
  deriving DecidableEq, Repr, Inhabited

/-- Whether a condition has to be proved or may be taken for granted. -/
inductive Duty
  | verify | assume
  deriving DecidableEq, Repr, Inhabited

/-- Whether a condition is about the state before or after an assignment. -/
inductive Placement
  | before | after
  deriving DecidableEq, Repr, Inhabited

/-- A rule that gives conditions for expressions. -/
inductive SideRule
  | nonNull (access : Access) (duty : Duty)
  | validAccess (access : Access) (duty : Duty)
  | nonZeroDivisor
  /-- A read of the first program agrees with the read of the second so many cells further. -/
  | offsetRead (width : Nat) (distance : Int)
  /-- A condition of its own for each expression of a kind. -/
  | custom (on : ExpKind) (duty : Duty) (placement : Placement) (cond : Exp) (name : String)
  deriving DecidableEq, Repr, Inhabited

/-- A condition that an expression gave rise to. -/
structure Hook where
  duty : Duty
  placement : Placement
  name : String
  term : Term .bool

inductive WeakeningKind
  | indirectJump | indirectCall | unknownCallee | loopBound | phi | recursiveInline
  deriving DecidableEq, Repr, Inhabited

def WeakeningKind.toText : WeakeningKind → String
  | indirectJump => "indirect-jump"
  | indirectCall => "indirect-call"
  | unknownCallee => "unknown-callee"
  | loopBound => "loop-bound"
  | phi => "phi"
  | recursiveInline => "recursive-inline"

/-- A place where the precondition is weaker than the exact one. -/
structure Weakening where
  kind : WeakeningKind
  tid : String
  detail : String
  deriving DecidableEq, Repr, Inhabited

end Precond
