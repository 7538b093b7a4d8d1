import Precond.Flow.Graph

/-! The depth-first search for back edges from a stack, for graphs of any depth. The stack holds the
blocks that the search is below, each with the successors that it has not looked at. A block without
such successors is left. -/

namespace Precond.Flow

namespace Search

/-- The successors of a block in a table. -/
def next (succs : Table String (List String)) (t : String) : List String := (succs.lookup t).getD []

/-- A block on the stack, with the successors that are still to be looked at. -/
structure Frame where
  node : String
  rest : List String

/-- A search with its stack, the innermost block first. -/
structure Machine extends State where
  stack : List Frame
  onStack : List String

namespace Machine

/-- The search at the entry. -/
def start (entry : String) (children : List String) : Machine :=
  ⟨⟨[entry], []⟩, [⟨entry, children⟩], [entry]⟩

/-- Look at the next successor of the innermost block, or leave this block. -/
def step (succs : Table String (List String)) (m : Machine) : Except Fault Machine :=
  match m.stack with
  | [] => .ok m
  | ⟨node, []⟩ :: stack => .ok { m with stack, onStack := m.onStack.erase node }
  | ⟨node, child :: rest⟩ :: stack =>
    if m.onStack.contains child then
      .ok { m with stack := ⟨node, rest⟩ :: stack, back := (node, child) :: m.back }
    else if m.visited.contains child then .ok { m with stack := ⟨node, rest⟩ :: stack }
    else
      match succs.lookup child with
      | none => .error .missingEntry
      | some children =>
        .ok { m with
          stack := ⟨child, children⟩ :: ⟨node, rest⟩ :: stack
          onStack := child :: m.onStack
          visited := child :: m.visited }

/-- How many blocks of a table the search has not come to. -/
def unseen (succs : Table String (List String)) (m : Machine) : Nat :=
  (succs.keys.filter (!m.visited.contains ·)).length

/-- How many successors are to be looked at, and blocks to be left. -/
def pending (m : Machine) : Nat := m.stack.foldr (fun f n => f.rest.length + 1 + n) 0

/-- A block that the search comes to is one fewer that it has not come to. -/
theorem unseen_lt {keys visited : List String} {t : String} (ht : t ∈ keys) (hnew : t ∉ visited) :
    (keys.filter (!(t :: visited).contains ·)).length < (keys.filter (!visited.contains ·)).length := by
  have hfilter : keys.filter (!(t :: visited).contains ·) =
      (keys.filter (!visited.contains ·)).filter (· ≠ t) := by
    rw [List.filter_filter]
    exact List.filter_congr fun x _ => by simp
  rw [hfilter, List.length_filter_lt_length_iff_exists]
  exact ⟨t, List.mem_filter.mpr ⟨ht, by simpa using hnew⟩, by simp⟩

/-- Each step comes to a block or has less to do. -/
theorem step_lt {succs : Table String (List String)} {m m' : Machine} (hm : m.stack ≠ [])
    (h : m.step succs = .ok m') : Prod.Lex (· < ·) (· < ·) (m'.unseen succs, m'.pending)
      (m.unseen succs, m.pending) := by
  obtain ⟨s, stack, onStack⟩ := m
  unfold step at h
  split at h <;> dsimp only at *
  · contradiction
  · cases h
    exact .right _ (by simp_all [pending])
  · rename_i node child rest stack hstack
    subst hstack
    split at h
    · cases h
      exact .right _ (by simp [pending])
    split at h
    · cases h
      exact .right _ (by simp [pending])
    split at h
    · cases h
    · rename_i hvisited _ _ hlookup
      cases h
      obtain ⟨l₁, l₂, hkeys, -⟩ := List.lookup_eq_some_iff.mp hlookup
      refine .left _ _ (unseen_lt ?_ fun hin => hvisited (List.contains_iff_mem.mpr hin))
      simp [hkeys, Table.keys]

/-- Search until no block is left on the stack. -/
def run (succs : Table String (List String)) (m : Machine) : Except Fault Machine :=
  if _hm : m.stack = [] then .ok m
  else
    match _h : m.step succs with
    | .ok m' => run succs m'
    | .error f => .error f
termination_by (m.unseen succs, m.pending)
decreasing_by exact step_lt _hm _h

end Machine

end Search

/-- The edges into a block on the stack that a search from the entry finds. -/
def backEdgesFromStack (succs : Table String (List String)) (entry : String) :
    Except Fault (List (String × String)) :=
  match succs.lookup entry with
  | none => .error .missingEntry
  | some children => return (← Search.Machine.run succs (.start entry children)).back

end Precond.Flow
