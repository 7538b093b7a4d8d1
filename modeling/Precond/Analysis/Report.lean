import Precond.Analysis.Setup
import Precond.Constraint.Print
import Precond.Constraint.Refute
import Precond.Json.Basic
import Precond.Solve.Candidate
import Precond.Solve.Solver

/-! The report of an analysis: the verdict with a counterexample and the goals that fail in it, what
weakens the result, and what else the options ask to be shown. A fault of the walk gives a report
too.

Reports as JSON data. Times are always told as zero: they are no part of the result. -/

namespace Precond.Analysis

inductive Status
  | unsat | sat | unknown | error
  deriving DecidableEq, Repr, Inhabited

def Status.toText : Status → String
  | unsat => "UNSAT"
  | sat => "SAT"
  | unknown => "UNKNOWN"
  | error => "ERROR"

/-- A failed goal; its formula and the jumps on the way to it are told if the options ask for
them. -/
structure GoalReport where
  name : String
  tid : Option String
  goal : Option String
  path : Option (List (String × Bool))
  deriving DecidableEq, Repr, Inhabited

structure Statistics where
  constraint : Option Constr.Stats
  /-- Whether the time of building the formula is told. -/
  eval : Bool
  solver : Bool
  deriving DecidableEq, Repr, Inhabited

structure Report where
  status : Status
  verdict : Option Verdict
  message : String
  counterexample : Option (Table String String)
  differences : Option (Table String (String × String))
  refutedGoals : List GoalReport
  weakenings : List Weakening
  stats : Option Statistics
  precondInternal : Option String
  precondFormula : Option String
  code : Option (List String)
  deriving Inhabited

/-- The terms of an environment by the names of their variables, with a mark behind each name. -/
def namedTerms (e : Env) (mark : String) : NamedTerms :=
  let sorted := fun (t : Table IR.Var SomeTerm) => t.mergeSort fun a b => !(b.1.name < a.1.name)
  let inits := (sorted e.inits).map fun (v, t) => (initFront ++ v.name ++ mark, t)
  let vars := (sorted e.vars).map fun (v, t) => (v.name ++ mark, t)
  (inits ++ vars).foldl (fun t (n, x) => Table.put t n x) []

def Setup.subs (s : Setup) : List IR.Sub := s.orig :: s.mod.toList

/-- The weakenings of both programs, each once. -/
def weakenings (s : Setup) (w : World) : List Weakening :=
  (w.orig.weakenings ++ (if s.mod.isSome then w.mod.weakenings else [])).eraseDups

def goalReport (o : Options) (r : Refuted) : GoalReport where
  name := r.name
  tid := r.tid
  goal := if o.display.contains "refuted-goals" then some r.value.toText else none
  path := if o.display.contains "paths" then some r.path else none

def provedMessage (o : Options) (weakenings : Nat) : String :=
  "binwp: Proof Successful (UNSAT). The postcondition holds on every path explored (loops unrolled up to " ++
    toString o.unrollBound ++ " times)." ++
    (if weakenings = 0 then ""
      else " " ++ toString weakenings ++ " soundness weakening(s) apply.")

def refutedMessage : String :=
  "binwp: Verification Failed (SAT). A counterexample was found that violates the postcondition."

def unknownMessage (reason : String) : String := "binwp: Inconclusive (UNKNOWN): " ++ reason ++ "."

/-- The values of the variables in a model: of one program, or of both with their names marked. -/
def counterexample (s : Setup) (w : World) (m : Model) : Table String String :=
  if s.mod.isSome then
    m.values (namedTerms w.orig "_orig") ++ m.values (namedTerms w.mod "_mod")
  else m.values (namedTerms w.orig "")

/-- Report a counterexample. -/
def reportModel (s : Setup) (w : World) (o : Options) (m : Model) (r : Report) :
    Except Fault Report := do
  let goals ← s.pre.refuted m
  return { r with
    status := .sat
    message := refutedMessage
    counterexample := some (counterexample s w m)
    differences := if s.mod.isSome then
      some (m.differences (namedTerms w.orig "") (namedTerms w.mod "")) else none
    refutedGoals := goals.map (goalReport o) }

/-- What the options ask to be shown of the constraint and the programs. -/
def reportShown (s : Setup) (o : Options) (r : Report) : Except Fault Report := do
  let formula ← s.pre.toFormula
  return { r with
    precondInternal := if o.display.contains "precond-internal" then some s.pre.toText else none
    precondFormula := if o.display.contains "precond-smtlib" then some formula.toText else none
    code := if o.display.contains "bir" then some (s.subs.map (·.toText)) else none }

/-- Check the constraint of an analysis and report. -/
def check (how : Search) (o : Options) (s : Setup) (w : World) : Except Fault Report := do
  let (verdict, outcome) ← match Solver.check how s.pre true .start with
    | .ok found _ => .ok found
    | .error f _ => .error f
  let ws := weakenings s w
  let base : Report := {
    status := .unsat
    verdict := some verdict
    message := provedMessage o ws.length
    counterexample := none
    differences := none
    refutedGoals := []
    weakenings := ws
    stats := some {
      constraint := if o.debug.contains "constraint-stats" then some s.pre.stats else none
      eval := o.debug.contains "eval-constraint-stats"
      solver := o.debug.contains "z3-solver-stats" }
    precondInternal := none
    precondFormula := none
    code := none }
  let report ← match outcome with
    | .unsat => pure base
    | .unknown reason => pure { base with status := .unknown, message := unknownMessage reason }
    | .sat found => reportModel s w o found.model base
  reportShown s o report

/-- The report of an analysis that could not be completed. -/
def failed (title message : String) : Report where
  status := .error
  verdict := none
  message := "binwp: " ++ title ++ ": " ++ message
  counterexample := none
  differences := none
  refutedGoals := []
  weakenings := []
  stats := none
  precondInternal := none
  precondFormula := none
  code := none

/-- The published name of a fault that ends in a report. -/
def reportTitle? : Fault → Option String
  | .translation why => some why.title
  | .unknownRegister .. => some "RegisterLookupError"
  | .noEntry _ => some "MissingEntryError"
  | _ => none

/-- Analyse one program, or compare two. -/
def run (how : Search) (o : Options) (programs : List IR.Program) : Except Fault Report :=
  match setup o programs >>= fun (s, w) => check how o s w with
  | .ok report => .ok report
  | .error f =>
    match reportTitle? f with
    | some title => .ok (failed title (f.message?.getD ""))
    | none => .error f

/-! ### As data -/

def optJson {α} (f : α → Json) (x : Option α) : Json := (x.map f).getD .null

def textTable (t : Table String String) : Json := .obj (t.map fun (n, v) => (n, .str v))

def differencesJson (t : Table String (String × String)) : Json :=
  .obj (t.map fun (n, x, y) => (n, .obj [("orig", .str x), ("mod", .str y)]))

def GoalReport.toJson (g : GoalReport) : Json :=
  .obj ([("name", .str g.name), ("tid", optJson .str g.tid)] ++
    (g.goal.map fun t => ("goal", Json.str t)).toList ++
    (g.path.map fun p => ("path", Json.obj (p.map fun (j, b) => (j, .bool b)))).toList)

def weakeningJson (w : Weakening) : Json :=
  .obj [("kind", .str w.kind.toText), ("tid", .str w.tid), ("detail", .str w.detail)]

def constraintStatsJson (s : Constr.Stats) : Json :=
  .obj [("goals", .int s.goals), ("clauses", .int s.clauses), ("ites", .int s.branches),
    ("substs", .int s.substs)]

def Statistics.toJson (s : Statistics) : Json :=
  .obj ((s.constraint.map fun c => ("constraint", constraintStatsJson c)).toList ++
    (if s.eval then [("eval_ms", .int 0)] else []) ++ [("solve_ms", .int 0)] ++
    (if s.solver then [("z3", .obj [])] else []))

/-- The parts that every report has. -/
def Report.common (r : Report) : List (String × Json) :=
  [("status", .str r.status.toText), ("verdict", optJson (fun v => .str v.toText) r.verdict),
    ("message", .str r.message), ("counterexample", optJson textTable r.counterexample),
    ("differences", optJson differencesJson r.differences),
    ("refuted_goals", .arr (r.refutedGoals.map GoalReport.toJson)),
    ("weakenings", .arr (r.weakenings.map weakeningJson)),
    ("stats", (r.stats.map Statistics.toJson).getD (.obj []))]

/-- The parts that are there only if they are asked for. -/
def Report.shown (r : Report) : List (String × Option Json) :=
  [("precond_internal", r.precondInternal.map .str), ("precond_smtlib", r.precondFormula.map .str),
    ("bir", r.code.map fun ts => .arr (ts.map .str))]

/-- A report without the parts that are not there. -/
def Report.toJson (r : Report) : Json :=
  .obj (r.common ++ r.shown.filterMap fun (n, x) => x.map (n, ·))

end Precond.Analysis
