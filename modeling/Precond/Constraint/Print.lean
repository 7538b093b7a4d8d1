import Precond.Constraint.Basic
import Precond.Term.Print
import Std.Data.HashMap
import Std.Data.HashSet

/-! Walking and printing constraints. Each node of a shared tree is met once; the text names it by a
label and refers to the label where the node comes again. -/

namespace Precond.Constr

/-- The nodes met so far, the latest first, with their numbers. -/
structure Met where
  seen : Std.HashSet Nat
  nodes : List Constr

mutual

/-- Meet a node and all below it, the last part first. -/
def meet : Constr → Met → Met
  | c@(goal id ..), s => if s.seen.contains id then s else ⟨s.seen.insert id, c :: s.nodes⟩
  | c@(clause id hyps goals), s =>
    if s.seen.contains id then s
    else meetLastFirst hyps (meetLastFirst goals ⟨s.seen.insert id, c :: s.nodes⟩)
  | c@(branch id _ _ yes no), s =>
    if s.seen.contains id then s
    else yes.meet (no.meet ⟨s.seen.insert id, c :: s.nodes⟩)
  | c@(subst id body _), s =>
    if s.seen.contains id then s else body.meet ⟨s.seen.insert id, c :: s.nodes⟩

def meetLastFirst : List Constr → Met → Met
  | [], s => s
  | c :: cs, s => c.meet (meetLastFirst cs s)

end

/-- All nodes, each once, from the root on with the last part first. -/
def nodes (c : Constr) : List Constr := (c.meet ⟨{}, []⟩).nodes.reverse

structure Stats where
  goals : Nat
  clauses : Nat
  branches : Nat
  substs : Nat
  deriving DecidableEq, Repr, Inhabited

/-- How many nodes of each kind there are. -/
def stats (c : Constr) : Stats :=
  c.nodes.foldl (fun s n =>
    match n with
    | goal .. => { s with goals := s.goals + 1 }
    | clause .. => { s with clauses := s.clauses + 1 }
    | branch .. => { s with branches := s.branches + 1 }
    | subst .. => { s with substs := s.substs + 1 }) ⟨0, 0, 0, 0⟩

/-- The labels given so far, and the lines, the latest first. -/
structure Page where
  labels : Std.HashMap Nat Nat
  lines : List String

namespace Page

def indent (depth : Nat) : String := String.ofList (List.replicate (2 * depth) ' ')

def line (depth : Nat) (s : String) (p : Page) : Page :=
  { p with lines := (indent depth ++ s) :: p.lines }

/-- Print a node: in full below a new label, or as a reference to its label. -/
def node (id depth : Nat) (head : String) (below : Page → Page) (p : Page) : Page :=
  match p.labels[id]? with
  | some n => p.line depth ("<shared #" ++ toString n ++ ">")
  | none =>
    let n := p.labels.size
    below (line depth ("#" ++ toString n ++ " " ++ head) { p with labels := p.labels.insert id n })

end Page

/-- The place of a goal, unless it has none. -/
def placeText : Option String → String
  | none | some "" => ""
  | some tid => " @" ++ tid

def pairText (p : SomeTerm × SomeTerm) : String := p.1.toText ++ " := " ++ p.2.toText

mutual

def print (depth : Nat) : Constr → Page → Page
  | goal id name value tid =>
    Page.node id depth ("Goal " ++ name ++ placeText tid ++ ": " ++ value.toText) fun p => p
  | clause id hyps goals =>
    Page.node id depth "Clause" fun p =>
      let p := if hyps.isEmpty then p else printAll (depth + 1) hyps (p.line depth " hyps:")
      printAll (depth + 1) goals (p.line depth " goals:")
  | branch id jump cond yes no =>
    Page.node id depth ("Ite " ++ jump ++ ": " ++ cond.toText) fun p =>
      no.print (depth + 1) (yes.print (depth + 1) p)
  | subst id body pairs =>
    Page.node id depth ("Subst [" ++ ", ".intercalate (pairs.map pairText) ++ "]") fun p =>
      body.print (depth + 1) p

def printAll (depth : Nat) : List Constr → Page → Page
  | [], p => p
  | c :: cs, p => printAll depth cs (c.print depth p)

end

/-- The indented text of a constraint. -/
def toText (c : Constr) : String :=
  "\n".intercalate (c.print 0 ⟨{}, []⟩).lines.reverse

end Precond.Constr
