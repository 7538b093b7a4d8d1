import Precond.Term.Build
import Precond.Term.Eval

/-! Searching for a model of guarded formulas. A formula under a guard binds only the models that make
its guard true; a search makes one guard true and, where it is free to choose, all others false. The
search goes through candidates, or through all values of the constants that occur, or gives up. -/

namespace Precond

/-- All values of a sort of words or truth values; memories are not varied. -/
def TSort.values : (s : TSort) → List s.Val
  | bool => [false, true]
  | bv w => (List.range (Nat.pow 2 w)).map (BitVec.ofNat w)
  | mem a c => [(⟨0#c, []⟩ : Memory a c)]

/-- The value of a sort that is zero everywhere. -/
def TSort.zero : (s : TSort) → s.Val
  | bool => false
  | bv w => 0#w
  | mem a c => (⟨0#c, []⟩ : Memory a c)

namespace Model

def zero : Model where
  const _ s := s.zero
  func _ dom ran := Fn.const dom ran.zero

/-- The model with another value for a constant. -/
def assign (m : Model) (name : String) (s : TSort) (v : s.Val) : Model where
  const n s' := if h : n = name ∧ s = s' then h.2 ▸ v else m.const n s'
  func := m.func

/-- The first model in which a test succeeds, over all values of some constants. -/
def find? (p : Model → Bool) : List (String × TSort) → Model → Option Model
  | [], m => if p m then some m else none
  | (n, s) :: rest, m => s.values.findSome? fun v => find? p rest (m.assign n s v)

end Model

/-- A formula, which may stand under a numbered guard. -/
structure Guarded where
  guard : Option Nat
  formula : Term .bool

/-- The name of a guard. -/
def guardName (n : Nat) : String := "__check_" ++ toString n

def Guarded.toTerm (g : Guarded) : Term .bool :=
  match g.guard with
  | none => g.formula
  | some n => Term.implies (.const (guardName n) .bool) g.formula

/-- How to search. -/
inductive Search
  | candidates (ms : List Model)
  | exhaustive
  | givenUp (reason : String)

structure Found where
  model : Model
  /-- The place among the candidates. -/
  place : Option Nat

inductive Outcome
  | sat (found : Found)
  | unsat
  | unknown (reason : String)

namespace Search

/-- The model with a guard made true. -/
def opened (m : Model) (guard : Nat) : Model := m.assign (guardName guard) .bool true

/-- Whether a model satisfies all formulas. -/
def satisfies (fs : List Guarded) (m : Model) : Bool := fs.all (·.toTerm.holds m)

/-- The first candidate that satisfies all formulas, from a place on. -/
def firstOf (fs : List Guarded) (guard : Nat) : Nat → List Model → Option Found
  | _, [] => none
  | i, m :: ms =>
    if satisfies fs (opened m guard) then some ⟨opened m guard, some i⟩
    else firstOf fs guard (i + 1) ms

/-- Search for a model of all formulas in which a guard is true. -/
def run (how : Search) (fs : List Guarded) (guard : Nat) : Outcome :=
  match how with
  | candidates ms => (firstOf fs guard 0 ms).elim .unsat .sat
  | exhaustive =>
    let consts := (fs.flatMap (·.formula.constants)).eraseDups
    (Model.find? (satisfies fs) consts (opened .zero guard)).elim .unsat fun m => .sat ⟨m, none⟩
  | givenUp reason => .unknown reason

end Search

end Precond
