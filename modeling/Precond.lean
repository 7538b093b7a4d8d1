import Precond.Analysis.Report
import Precond.Analysis.Setup
import Precond.Compare.Basic
import Precond.Constraint.Basic
import Precond.Constraint.Formula
import Precond.Constraint.Listing
import Precond.Constraint.Print
import Precond.Constraint.Refute
import Precond.Constraint.Stack
import Precond.Decimal.Shortest
import Precond.Env.Basic
import Precond.Fault
import Precond.Flow.Graph
import Precond.Flow.Search
import Precond.IR.Arch
import Precond.IR.Exp
import Precond.IR.Print
import Precond.IR.Program
import Precond.IR.Reader
import Precond.Json.Basic
import Precond.Json.Text
import Precond.Limits
import Precond.Load.Draft
import Precond.Load.Program
import Precond.Options
import Precond.Pattern.Basic
import Precond.Pattern.Reader
import Precond.Policy.Basic
import Precond.Proofs.Compare.Alone
import Precond.Proofs.Compare.Comparators
import Precond.Proofs.Compare.Duo
import Precond.Proofs.Compare.Effects
import Precond.Proofs.Compare.Fair
import Precond.Proofs.Compare.Mirror
import Precond.Proofs.Compare.Moved
import Precond.Proofs.Compare.Named
import Precond.Proofs.Compare.Opening
import Precond.Proofs.Compare.Snapshot
import Precond.Proofs.Compare.Tandem
import Precond.Proofs.Compare.Texts
import Precond.Proofs.Compare.Worlds
import Precond.Proofs.Constraint.Composed
import Precond.Proofs.Constraint.Contained
import Precond.Proofs.Constraint.Formula
import Precond.Proofs.Constraint.Given
import Precond.Proofs.Constraint.Listing
import Precond.Proofs.Constraint.Meaning
import Precond.Proofs.Constraint.Refute
import Precond.Proofs.Constraint.Renamed
import Precond.Proofs.Constraint.Spare
import Precond.Proofs.Constraint.Stack
import Precond.Proofs.Constraint.Traversal
import Precond.Proofs.Env.Gives
import Precond.Proofs.Env.Kept
import Precond.Proofs.Env.Makes
import Precond.Proofs.Env.Names
import Precond.Proofs.Env.Renamed
import Precond.Proofs.Env.Safe
import Precond.Proofs.Exact.Basic
import Precond.Proofs.Exact.Blocks
import Precond.Proofs.Exact.Cache
import Precond.Proofs.Exact.Conditions
import Precond.Proofs.Exact.Constants
import Precond.Proofs.Exact.Containment
import Precond.Proofs.Exact.Contracts
import Precond.Proofs.Exact.Deeper
import Precond.Proofs.Exact.Fitting
import Precond.Proofs.Exact.Healthiness
import Precond.Proofs.Exact.Inlining
import Precond.Proofs.Exact.Jumps
import Precond.Proofs.Exact.Order
import Precond.Proofs.Exact.Phis
import Precond.Proofs.Exact.Premises
import Precond.Proofs.Exact.Purposes
import Precond.Proofs.Exact.Reflexive
import Precond.Proofs.Exact.Relational
import Precond.Proofs.Exact.Summaries
import Precond.Proofs.Exact.Translation
import Precond.Proofs.Exact.Unrolling
import Precond.Proofs.Exact.Visits
import Precond.Proofs.Flow.Cycles
import Precond.Proofs.Flow.Graph
import Precond.Proofs.Flow.Order
import Precond.Proofs.Flow.Search
import Precond.Proofs.Flow.Unroll
import Precond.Proofs.IR.Lets
import Precond.Proofs.IR.Reading
import Precond.Proofs.IR.Sharing
import Precond.Proofs.Load.Program
import Precond.Proofs.Run.Agreement
import Precond.Proofs.Run.Choices
import Precond.Proofs.Run.Closed
import Precond.Proofs.Run.Exp
import Precond.Proofs.Run.Readings
import Precond.Proofs.Run.Store
import Precond.Proofs.Run.Sub
import Precond.Proofs.Run.Typing
import Precond.Proofs.Run.Value
import Precond.Proofs.Smt.Alike
import Precond.Proofs.Smt.Script
import Precond.Proofs.Solve.Enumeration
import Precond.Proofs.Solve.Session
import Precond.Proofs.Term.Access
import Precond.Proofs.Term.Bytes
import Precond.Proofs.Term.Operators
import Precond.Proofs.Term.Value
import Precond.Proofs.Walk.Alike
import Precond.Proofs.Walk.Around
import Precond.Proofs.Walk.Block
import Precond.Proofs.Walk.Builds
import Precond.Proofs.Walk.Checks
import Precond.Proofs.Walk.Effects
import Precond.Proofs.Walk.Expansion
import Precond.Proofs.Walk.Files
import Precond.Proofs.Walk.Forcing
import Precond.Proofs.Walk.Grounded
import Precond.Proofs.Walk.Hooks
import Precond.Proofs.Walk.Keeps
import Precond.Proofs.Walk.Later
import Precond.Proofs.Walk.Linear
import Precond.Proofs.Walk.Lockstep
import Precond.Proofs.Walk.Making
import Precond.Proofs.Walk.Meeting
import Precond.Proofs.Walk.Monad
import Precond.Proofs.Walk.Nesting
import Precond.Proofs.Walk.Once
import Precond.Proofs.Walk.Operands
import Precond.Proofs.Walk.Plain
import Precond.Proofs.Walk.Replay
import Precond.Proofs.Walk.Respects
import Precond.Proofs.Walk.Sparing
import Precond.Proofs.Walk.Stack
import Precond.Proofs.Walk.Steady
import Precond.Proofs.Walk.Sub
import Precond.Proofs.Walk.Success
import Precond.Proofs.Walk.Symbols
import Precond.Proofs.Walk.Translate
import Precond.Proofs.Walk.Twin
import Precond.Schema
import Precond.Service
import Precond.Sexp.Reader
import Precond.Smt.Formula
import Precond.Solve.Candidate
import Precond.Solve.Search
import Precond.Solve.Solver
import Precond.Table
import Precond.Term.Access
import Precond.Term.Basic
import Precond.Term.Build
import Precond.Term.Eval
import Precond.Term.Print
import Precond.Term.Sort
import Precond.Term.Word
import Precond.Text.Digit
import Precond.Text.Letter
import Precond.Text.Numeral
import Precond.Text.Quoted
import Precond.Text.Word
import Precond.Walk.Basic
import Precond.Walk.Block
import Precond.Walk.Call
import Precond.Walk.Formula
import Precond.Walk.Inputs
import Precond.Walk.Sub
import Precond.Walk.Translate
