import Precond.Constraint.Print
import Precond.Constraint.Stack

/-! Walking and printing constraints from stacks, for trees of any depth. To walk, the parts of a node
are put on the stack with the last one on top. To print, they are put on it with the first one on top,
below the titles of hypotheses and goals; a line is the title, a node in full, or a reference to
the label of a node. -/

namespace Precond.Constr

theorem extents_reverse (cs : List Constr) : extents cs.reverse = extents cs := by
  induction cs with
  | nil => rfl
  | cons c cs ih => simp [extents, extents_append, ih, Nat.add_comm]

/-- Take nodes from a stack, each once. -/
def walk : List Constr → Std.HashSet Nat → List Constr
  | [], _ => []
  | c :: rest, seen =>
    if seen.contains c.id then walk rest seen
    else c :: walk (c.children.reverse ++ rest) (seen.insert c.id)
termination_by stack => extents stack
decreasing_by
  · have he := extent_eq c
    rw [extents]
    omega
  · have he := extent_eq c
    have hr := extents_reverse c.children
    rw [extents, extents_append]
    omega

/-- All nodes, each once, from a stack. -/
def nodesFromStack (c : Constr) : List Constr := walk [c] {}

/-- What a node says of itself. -/
def head : Constr → String
  | goal _ name value tid => "Goal " ++ name ++ placeText tid ++ ": " ++ value.toText
  | clause .. => "Clause"
  | branch _ jump cond _ _ => "Ite " ++ jump ++ ": " ++ cond.toText
  | subst _ _ pairs => "Subst [" ++ ", ".intercalate (pairs.map pairText) ++ "]"

/-- A line of the text. A node that has been printed is referred to by its label. -/
inductive Line
  | title (depth : Nat) (text : String)
  | full (depth label : Nat) (node : Constr)
  | reference (depth label : Nat) (node : Constr)

def Line.toText : Line → String
  | title depth text => Page.indent depth ++ text
  | full depth label node => Page.indent depth ++ ("#" ++ toString label ++ " " ++ node.head)
  | reference depth label _ => Page.indent depth ++ ("<shared #" ++ toString label ++ ">")

/-- A title or a node on the stack. -/
inductive Item
  | title (depth : Nat) (text : String)
  | node (depth : Nat) (c : Constr)

/-- What is to be printed below a node. -/
def content (depth : Nat) : Constr → List Item
  | goal .. => []
  | clause _ hyps goals =>
    (if hyps.isEmpty then [] else .title depth " hyps:" :: hyps.map (.node (depth + 1))) ++
      .title depth " goals:" :: goals.map (.node (depth + 1))
  | branch _ _ _ yes no => [.node (depth + 1) yes, .node (depth + 1) no]
  | subst _ body _ => [.node (depth + 1) body]

/-- What is still to be printed. A node weighs more than the titles and the parts below it. -/
def weight : List Item → Nat
  | [] => 0
  | .title .. :: rest => weight rest + 1
  | .node _ c :: rest => 3 * extent c + weight rest

theorem weight_append (is js : List Item) : weight (is ++ js) = weight is + weight js := by
  induction is with
  | nil => simp [weight]
  | cons i is ih => cases i <;> simp [weight, ih] <;> omega

theorem weight_nodes (depth : Nat) (cs : List Constr) :
    weight (cs.map (.node depth)) = 3 * extents cs := by
  induction cs with
  | nil => rfl
  | cons c cs ih => simp [weight, extents, ih, Nat.mul_add]

theorem weight_content_lt (depth : Nat) (c : Constr) : weight (content depth c) < 3 * extent c := by
  cases c with
  | goal => simp [content, weight, extent]
  | clause id hyps goals =>
    rw [content, weight_append]
    split <;> simp [weight, weight_nodes, extent] <;> omega
  | branch id jump cond yes no =>
    simp [content, weight, extent]
    omega
  | subst id body pairs => simp [content, weight, extent]

/-- Print what is on a stack. -/
def list : List Item → Std.HashMap Nat Nat → List Line
  | [], _ => []
  | .title depth text :: rest, labels => .title depth text :: list rest labels
  | .node depth c :: rest, labels =>
    match labels[c.id]? with
    | some n => .reference depth n c :: list rest labels
    | none => .full depth labels.size c :: list (content depth c ++ rest) (labels.insert c.id labels.size)
termination_by items => weight items
decreasing_by
  · simp [weight]
  · have he := extent_eq c
    rw [weight]
    omega
  · have hb := weight_content_lt depth c
    rw [weight, weight_append]
    omega

/-- The lines of a constraint. -/
def lines (c : Constr) : List Line := list [.node 0 c] {}

/-- The indented text of a constraint, from a stack. -/
def textFromStack (c : Constr) : String := "\n".intercalate (c.lines.map Line.toText)

end Precond.Constr
