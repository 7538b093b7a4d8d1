import Precond.Constraint.Formula

/-! The formula of a constraint from a stack of nodes, for trees of any depth. A node that is met
first waits on the stack below its parts; when it comes up again, the formulas of its parts are kept
and its own is made of them. A node whose formula is kept already is dropped. -/

namespace Precond.Constr

/-- A node on the stack, and whether its parts have been above it. -/
structure Task where
  node : Constr
  ready : Bool

/-- The formula that is kept for a node. -/
def kept (memo : Memo) (c : Constr) : Except Fault (Term .bool) :=
  match memo[c.id]? with
  | some t => .ok t
  | none => .error .missingEntry

/-- The formula of a node from those that are kept for its parts. -/
def combine (memo : Memo) : Constr → Except Fault (Term .bool)
  | goal _ _ value _ => return value
  | clause _ hyps goals => do
    let gs ← goals.mapM (kept memo)
    if hyps.isEmpty then return Term.conj gs
    return (Term.conj (← hyps.mapM (kept memo))).implies (Term.conj gs)
  | branch _ _ cond yes no => do return Term.ite cond (← kept memo yes) (← kept memo no)
  | subst _ body pairs => do (← kept memo body).under pairs

/-- The parts of a node without a kept formula, the last one on top. -/
def waiting (memo : Memo) (c : Constr) : List Task :=
  ((c.children.filter fun d => !memo.contains d.id).map (⟨·, false⟩)).reverse

mutual

/-- The number of nodes of a constraint as a tree. -/
def extent : Constr → Nat
  | goal .. => 1
  | clause _ hyps goals => extents hyps + extents goals + 1
  | branch _ _ _ yes no => extent yes + extent no + 1
  | subst _ body _ => extent body + 1

def extents : List Constr → Nat
  | [] => 0
  | c :: cs => extent c + extents cs

end

/-- What is still to be done on a stack. A node weighs more than its parts do together. -/
def load : List Task → Nat
  | [] => 0
  | t :: rest => (if t.ready then 1 else 2 * extent t.node) + load rest

theorem extents_append (cs ds : List Constr) : extents (cs ++ ds) = extents cs + extents ds := by
  induction cs with
  | nil => simp [extents]
  | cons c cs ih => simp [extents, ih, Nat.add_assoc]

theorem extent_eq (c : Constr) : extent c = extents c.children + 1 := by
  cases c <;> simp [extent, extents, extents_append, children]

theorem load_append (ts us : List Task) : load (ts ++ us) = load ts + load us := by
  induction ts with
  | nil => simp [load]
  | cons t ts ih => simp [load, ih, Nat.add_assoc]

theorem load_reverse (ts : List Task) : load ts.reverse = load ts := by
  induction ts with
  | nil => rfl
  | cons t ts ih => simp [load_append, ih, load, Nat.add_comm]

theorem load_waiting_le (memo : Memo) (c : Constr) :
    load (waiting memo c) ≤ 2 * extents c.children := by
  rw [waiting, load_reverse]
  induction c.children with
  | nil => exact Nat.le_refl _
  | cons d ds ih =>
    rw [List.filter_cons]
    split <;> simp only [List.map_cons, load, extents, Bool.false_eq_true, if_false] <;> omega

/-- Work off a stack. -/
def work : List Task → Memo → Except Fault Memo
  | [], memo => .ok memo
  | ⟨c, ready⟩ :: rest, memo =>
    if memo.contains c.id then work rest memo
    else if ready then
      match combine memo c with
      | .ok t => work rest (memo.insert c.id t)
      | .error f => .error f
    else work (waiting memo c ++ ⟨c, true⟩ :: rest) memo
termination_by tasks => load tasks
decreasing_by
  · have he := extent_eq c
    cases ready <;> simp [load]
    omega
  · simp_all [load]
  · have hw := load_waiting_le memo c
    have he := extent_eq c
    simp_all [load, load_append]
    omega

/-- The formula of a constraint with the formulas of all its nodes. -/
def formulaFromStack (c : Constr) : Except Fault (Term .bool × Memo) := do
  let memo ← work [⟨c, false⟩] {}
  return (← kept memo c, memo)

end Precond.Constr
