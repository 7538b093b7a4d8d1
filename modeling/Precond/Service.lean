import Precond.Analysis.Report
import Precond.Load.Program

/-! The checking service: a request names one program or two and the options, and the reply holds the
report, or tells why there is none. -/

namespace Precond.Service

open Schema

def engine : String := "binwp-0.3.0"

structure Request where
  programs : List Draft.Program
  options : Options

def Request.check : Check Request := Check.object fun fs =>
  Request.mk <$> fs.required "programs" (Check.list Draft.Program.check 1 (some 2))
    <*> fs.withDefault "options" Options.check {}

inductive Reply
  /-- The request does not have the right shape. -/
  | malformed (issues : List Issue)
  /-- There is nothing to analyse. -/
  | refused (why : Fault)
  | done (report : Analysis.Report)

def Reply.code : Reply → Nat
  | malformed _ => 422
  | refused _ => 400
  | done _ => 200

def handle (how : Search) (r : Request) : Except Fault Analysis.Report := do
  let programs ← (r.programs.mapM Load.draft).run' 1
  Analysis.run how r.options programs

/-- Answer a request. A fault that is not one of the configuration ends the request. -/
def answer (how : Search) (body : Json) : Except Fault Reply :=
  match Request.check body with
  | .error issues => .ok (.malformed issues)
  | .ok r =>
    match handle how r with
    | .ok report => .ok (.done report)
    | .error (.config why) => .ok (.refused (.config why))
    | .error f => .error f

/-- The body of a reply with a report: parts that are not there are null. -/
def reportBody (r : Analysis.Report) : Json :=
  .obj (r.common ++ r.shown.map (fun (n, x) => (n, x.getD .null)) ++ [("elapsed_ms", .int 0)])

def health : Json :=
  .obj [("status", .str "ok"), ("engine", .str engine),
    ("bounds", .obj [("num_unroll", .int Limits.unrollBound),
      ("z3_timeout_ms", .int Limits.solverTime)])]

end Precond.Service
