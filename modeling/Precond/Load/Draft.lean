import Precond.IR.Program
import Precond.Schema
import Precond.Text.Quoted

/-! Programs as data of the right shape, before names are resolved and expressions read. -/

namespace Precond.Draft

open Schema

inductive Label
  | direct (tid : String)
  | indirect (exp : String)
  deriving DecidableEq, Repr, Inhabited

structure Def where
  lhs : String
  rhs : String
  tid : Option String
  deriving DecidableEq, Repr, Inhabited

structure Phi where
  lhs : String
  values : List (String × String)
  tid : Option String
  deriving DecidableEq, Repr, Inhabited

inductive JumpKind
  | goto | call | ret | interrupt
  deriving DecidableEq, Repr, Inhabited

structure Jump where
  kind : JumpKind
  cond : String
  target : Option Label
  ret : Option Label
  number : Int
  tid : Option String
  deriving DecidableEq, Repr, Inhabited

structure Arg where
  var : String
  intent : IR.Intent
  deriving DecidableEq, Repr, Inhabited

structure Blk where
  tid : String
  phis : List Phi
  defs : List Def
  jumps : List Jump
  deriving DecidableEq, Repr, Inhabited

structure Sub where
  name : String
  tid : Option String
  addr : Option Int
  vars : List (String × Int)
  args : List Arg
  blks : List Blk
  deriving DecidableEq, Repr, Inhabited

structure Program where
  arch : String
  subs : List Sub
  deriving DecidableEq, Repr, Inhabited

/-- A label is a text, or an object with the text of an address; defects are told for both. -/
def Label.check : Check Label
  | .str s => .ok (.direct s)
  | j =>
    let asText : Checked Label := (Checked.fail .notString).under (.field "str")
    let asExp : Checked Label := Checked.under (.field "IndirectModel") <|
      Check.object (fun fs => Label.indirect <$> fs.required "exp" Check.string) j
    match asText, asExp with
    | .error e, .error e' => .error (e ++ e')
    | _, found => found

def Def.check : Check Def := Check.object fun fs =>
  Def.mk <$> fs.required "lhs" Check.string
    <*> fs.required "rhs" Check.string
    <*> fs.optional "tid" Check.string

def Phi.check : Check Phi := Check.object fun fs =>
  Phi.mk <$> fs.required "lhs" Check.string
    <*> fs.required "values" (Check.list (Check.pair Check.string Check.string) 1 none)
    <*> fs.optional "tid" Check.string

def JumpKind.check : Check JumpKind
  | .str "goto" => .ok .goto
  | .str "call" => .ok .call
  | .str "ret" => .ok .ret
  | .str "int" => .ok .interrupt
  | _ => .fail .notLiteral

def Jump.check : Check Jump := Check.object fun fs =>
  let ret := if (fs.lookup "return").isSome then "return" else "return_"
  Jump.mk <$> fs.required "kind" JumpKind.check
    <*> fs.withDefault "cond" Check.string "1:1"
    <*> fs.optional "target" Label.check
    <*> fs.optional ret Label.check
    <*> fs.withDefault "number" Check.integer 0
    <*> fs.optional "tid" Check.string

def checkIntent : Check IR.Intent
  | .str "in" => .ok .input
  | .str "out" => .ok .output
  | .str "both" => .ok .both
  | _ => .fail .notChoice

def Arg.check : Check Arg := Check.object fun fs =>
  Arg.mk <$> fs.required "var" Check.string <*> fs.withDefault "intent" checkIntent .input

def Blk.check : Check Blk := Check.object fun fs =>
  Blk.mk <$> fs.required "tid" Check.string
    <*> fs.withDefault "phis" (Check.listOf Phi.check) []
    <*> fs.withDefault "defs" (Check.listOf Def.check) []
    <*> fs.withDefault "jmps" (Check.listOf Jump.check) []

/-- An address may also be a numeral whose base is told by a mark. -/
def checkAddr : Check (Option Int)
  | .str s =>
    match Text.integer? s with
    | some i => .ok (some i)
    | none => .fail (.refused ("invalid literal for int() with base 0: " ++ Text.quote s))
  | j => Check.nullable Check.integer j

def Sub.check : Check Sub := Check.object fun fs =>
  Sub.mk <$> fs.required "name" Check.nonEmptyString
    <*> fs.optional "tid" Check.string
    <*> fs.withDefault "addr" checkAddr none
    <*> fs.withDefault "vars" (Check.table Check.integer) []
    <*> fs.withDefault "args" (Check.listOf Arg.check) []
    <*> fs.withDefault "blks" (Check.listOf Blk.check) []

def Program.check : Check Program := Check.object fun fs =>
  Program.mk <$> fs.withDefault "arch" Check.string "x86_64"
    <*> fs.withDefault "subs" (Check.listOf Sub.check) []

end Precond.Draft
