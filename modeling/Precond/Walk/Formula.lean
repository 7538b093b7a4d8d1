import Precond.Smt.Formula
import Precond.Walk.Basic

/-! Conditions in SMT-LIB text. The names in a text are those of the variables, with `init_` in front
for their values at entry; in a comparison each name also tells which program it belongs to. -/

namespace Precond.Walk

open IR

/-- The single goal of a text: all its assertions. -/
def formula (text : String) (decls : Smt.Decls) : Walk Constr := do
  match Smt.assertions decls text with
  | none => throw (.config (.badFormula text))
  | some [] => mkGoal "smtlib" (.truth true) none
  | some ps =>
    let name := String.ofList (Text.trim Text.isMargin text.toList)
    mkGoal ("smtlib: " ++ name) (match ps with
      | [p] => p
      | ps => .and ps) none

/-- The variables of an environment and their entry values as declared names. -/
def declsOf (e : Env) (mark : String) : Smt.Decls :=
  let vars := e.vars.foldl (fun t (v, x) => Table.put t (v.name ++ mark) x) ([] : Smt.Decls)
  e.inits.foldl (fun t (v, x) => Table.put t (initFront ++ v.name ++ mark) x) vars

def formulaFor (side : Side) (text : String) : Walk Constr := do
  formula text (declsOf (← env side) "")

/-- A text about both programs. -/
def formulaForBoth (text : String) : Walk Constr := do
  let orig := declsOf (← env .orig) "_orig"
  let mod := declsOf (← env .mod) "_mod"
  formula text (mod.foldl (fun t (n, x) => Table.put t n x) orig)

end Precond.Walk
