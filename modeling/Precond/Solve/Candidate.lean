import Precond.Table
import Precond.Term.Eval
import Precond.Term.Print

/-! Candidate models: values of constants and functions by name, given without their sorts. What a
candidate does not name is zero. A constant of a second program may also be named as in the first,
and the value of a variable at entry by the variable. -/

namespace Precond

/-- A value that fits any sort: a number, or a memory by its cells and a function by its entries,
with what they hold elsewhere. -/
inductive Sketch
  | number (i : Int)
  | spread (base : Sketch) (cells : List (Sketch × Sketch)) (entries : List (List Sketch × Sketch))
  | nothing
  deriving Inhabited

namespace Sketch

def word (w : Nat) : Sketch → BitVec w
  | number i => BitVec.ofInt w i
  | _ => 0#w

def truth : Sketch → Bool
  | number i => i != 0
  | _ => false

/-- The memory of a sketch; of two values for a cell the later one counts. -/
def memory (a c : Nat) : Sketch → Memory a c
  | spread base cells _ =>
    cells.foldl (fun m e => m.set (e.1.word a) (e.2.word c)) ⟨base.word c, []⟩
  | _ => ⟨0#c, []⟩

def value (x : Sketch) : (s : TSort) → s.Val
  | .bool => x.truth
  | .bv w => x.word w
  | .mem a c => x.memory a c

/-- The function that looks up its arguments in the entries. -/
def lookup : (dom : List TSort) → (ran : TSort) → List (List Sketch × Sketch) → Sketch → Fn dom ran
  | [], ran, entries, base => ((entries.getLast?.map (·.2)).getD base).value ran
  | s :: dom, ran, entries, base => fun v =>
    lookup dom ran (entries.filterMap fun e =>
      match e with
      | (x :: xs, y) => if s.agree (x.value s) v then some (xs, y) else none
      | ([], _) => none) base

def func (dom : List TSort) (ran : TSort) : Sketch → Fn dom ran
  | spread base _ entries => lookup dom ran entries base
  | x => Fn.const dom (x.value ran)

end Sketch

abbrev Candidate := Table String Sketch

namespace Candidate

/-- Drop a text in front, if it is there. -/
def dropFront (front : String) (name : String) : Option String :=
  if name.toList.take front.length = front.toList then
    some (String.ofList (name.toList.drop front.length))
  else none

/-- The name in the first program of a numbered name of the second. -/
def origName (name : String) : Option String := do
  let cs := (← dropFront "mod." name).toList.reverse
  let digits := cs.takeWhile Char.isDigit
  match digits.isEmpty, cs.drop digits.length with
  | false, '_' :: rest => some (String.ofList rest.reverse)
  | _, _ => none

/-- The names that tell the value of a constant, the first one best. -/
def namesOf (name : String) : List String :=
  let orig := origName name
  name :: orig.toList ++ (dropFront "init_" (orig.getD name)).toList

def sketch (c : Candidate) (name : String) : Sketch :=
  ((namesOf name).findSome? fun n => List.lookup n c).getD .nothing

def model (c : Candidate) : Model where
  const name s := (c.sketch name).value s
  func name dom ran := ((List.lookup name c).getD .nothing).func dom ran

end Candidate

/-! ### The values of named terms in a model -/

/-- The text of a value alone, a word without its width. -/
def TSort.plainText : (s : TSort) → s.Val → String
  | .bool, b => cond b "true" "false"
  | .bv _, x => Text.hexNat (BitVec.toNat x)
  | .mem _ _, m => m.toText

/-- Terms with the names they are shown by. -/
abbrev NamedTerms := Table String SomeTerm

namespace Model

def valueText (m : Model) (t : SomeTerm) : String := t.1.plainText (t.2.eval m)

def values (m : Model) (terms : NamedTerms) : Table String String :=
  terms.map fun (name, t) => (name, m.valueText t)

/-- The names of both programs whose values differ, sorted, with both values. -/
def differences (m : Model) (orig mod : NamedTerms) : Table String (String × String) :=
  let orig := m.values orig
  let mod := m.values mod
  let pairs := orig.filterMap fun (name, x) => (List.lookup name mod).map fun y => (name, x, y)
  (pairs.filter fun (_, x, y) => x ≠ y).mergeSort fun a b => !(b.1 < a.1)

end Model

end Precond
