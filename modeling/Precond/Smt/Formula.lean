import Precond.Table
import Precond.Term.Build
import Precond.Text.Numeral

/-! Tokens and nested lists of SMT-LIB text.

Formulas in SMT-LIB text. A text is a sequence of assertions; a bare formula stands for the
assertion of it. Names stand for declared constants and for the terms bound by `let`. Text that is
not well sorted has no formula. -/

namespace Precond.Smt

inductive Token
  | open
  | close
  | symbol (name : String)
  | number (digits : List Char)
  | hex (digits : List Char)
  | bits (digits : List Char)
  /-- A keyword, a text or a decimal: known, but of no use in a formula. -/
  | other
  deriving DecidableEq, Repr, Inhabited

def isSpace (c : Char) : Bool := c == ' ' || c == '\t' || c == '\n' || c == '\r'

def isSymbolChar (c : Char) : Bool :=
  c.isAlphanum || "~!@$%^&*_-+=<>.?/".toList.contains c

def isHexDigit (c : Char) : Bool :=
  c.isDigit || ('a' ≤ c && c ≤ 'f') || ('A' ≤ c && c ≤ 'F')

/-- The text behind a closing mark; the mark written twice belongs to the text if `doubled`. -/
def skipTo (mark : Char) (doubled : Bool) : List Char → Option (List Char)
  | [] => none
  | [c] => if c = mark then some [] else none
  | c :: d :: cs =>
    if c = mark then
      if doubled && d = mark then skipTo mark doubled cs else some (d :: cs)
    else skipTo mark doubled (d :: cs)

/-- One token in front of a text that starts with neither a blank nor a comment. -/
def next (c : Char) (cs : List Char) : Option (Token × List Char) :=
  if c = '(' then some (.open, cs)
  else if c = ')' then some (.close, cs)
  else if c = '|' then
    let name := cs.takeWhile (· != '|')
    match cs.dropWhile (· != '|') with
    | [] => none
    | _ :: rest => some (.symbol (String.ofList name), rest)
  else if c = '"' then (skipTo '"' true cs).map (.other, ·)
  else if c = ':' then some (.other, cs.dropWhile isSymbolChar)
  else if c = '#' then
    match cs with
    | 'x' :: rest =>
      let ds := rest.takeWhile isHexDigit
      if ds.isEmpty then none else some (.hex ds, rest.dropWhile isHexDigit)
    | 'b' :: rest =>
      let isBit := fun c => c == '0' || c == '1'
      let ds := rest.takeWhile isBit
      if ds.isEmpty then none else some (.bits ds, rest.dropWhile isBit)
    | _ => none
  else if c.isDigit then
    let ds := c :: cs.takeWhile Char.isDigit
    match cs.dropWhile Char.isDigit with
    | '.' :: rest => some (.other, rest.dropWhile Char.isDigit)
    | rest => some (.number ds, rest)
  else if isSymbolChar c then
    some (.symbol (String.ofList (c :: cs.takeWhile isSymbolChar)), cs.dropWhile isSymbolChar)
  else none

/-- The tokens of a text without blanks and comments. -/
def tokens : Nat → List Char → Option (List Token)
  | _, [] => some []
  | 0, _ => none
  | fuel + 1, c :: cs =>
    if isSpace c then tokens fuel cs
    else if c = ';' then tokens fuel (cs.dropWhile (· != '\n'))
    else do
      let (t, rest) ← next c cs
      return t :: (← tokens fuel rest)

/-- A token, or a list in brackets. -/
inductive Datum
  | atom (t : Token)
  | list (items : List Datum)
  deriving Inhabited

/-- Nest tokens by their brackets. `outer` holds what the open brackets stand behind. -/
def nest (outer : List (List Datum)) (done : List Datum) : List Token → Option (List Datum)
  | [] => if outer.isEmpty then some done.reverse else none
  | .open :: ts => nest (done :: outer) [] ts
  | .close :: ts =>
    match outer with
    | before :: outer => nest outer (.list done.reverse :: before) ts
    | [] => none
  | t :: ts => nest outer (.atom t :: done) ts

def data? (text : String) : Option (List Datum) := do
  nest [] [] (← tokens (text.length + 1) text.toList)

/-! ### Formulas -/

/-- Declared names with their terms. -/
abbrev Decls := Table String SomeTerm

def truths : List SomeTerm → Option (List (Term .bool))
  | [] => some []
  | ⟨.bool, p⟩ :: xs => (truths xs).map (p :: ·)
  | _ => none

/-- All terms, as terms of one sort. -/
def uniform (s : TSort) : List SomeTerm → Option (List (Term s))
  | [] => some []
  | ⟨s', x⟩ :: xs => if h : s' = s then (uniform s xs).map (h ▸ x :: ·) else none

def word? : SomeTerm → Option ((w : Nat) × Term (.bv w))
  | ⟨.bv w, x⟩ => some ⟨w, x⟩
  | _ => none

/-- The equations of neighbours. -/
def chain {s : TSort} : List (Term s) → List (Term .bool)
  | x :: y :: rest => .app (.app (.op (.eq s)) x) y :: chain (y :: rest)
  | _ => []

def equal : List SomeTerm → Option SomeTerm
  | ⟨s, x⟩ :: xs => do
    match chain (x :: (← uniform s xs)) with
    | [] => none
    | [p] => some ⟨_, p⟩
    | ps => some ⟨_, Term.and ps⟩
  | [] => none

def distinct : List SomeTerm → Option SomeTerm
  | ⟨s, x⟩ :: xs => do
    let xs := x :: (← uniform s xs)
    some ⟨_, .saturate xs (.op (.distinct s xs.length))⟩
  | [] => none

/-- Implications, grouped to the right. -/
def imply : List (Term .bool) → Option (Term .bool)
  | [p, q] => some (p.implies q)
  | p :: ps => do return p.implies (← imply ps)
  | [] => none

/-- A connective of any number of formulas, but of one at least. -/
def connective (build : List (Term .bool) → Term .bool) (args : List SomeTerm) :
    Option SomeTerm := do
  let ps ← truths args
  if ps.isEmpty then none else some ⟨_, build ps⟩

def binWords (op : BvBin) : List SomeTerm → Option SomeTerm
  | [x, y] => do
    let ⟨w, x⟩ ← word? x
    let ⟨v, y⟩ ← word? y
    if h : v = w then some ⟨_, Term.bin op x (h ▸ y)⟩ else none
  | _ => none

def cmpWords (op : BvCmp) : List SomeTerm → Option SomeTerm
  | [x, y] => do
    let ⟨w, x⟩ ← word? x
    let ⟨v, y⟩ ← word? y
    if h : v = w then some ⟨_, Term.cmp op x (h ▸ y)⟩ else none
  | _ => none

def unWord (op : BvUn) : List SomeTerm → Option SomeTerm
  | [x] => do
    let ⟨_, x⟩ ← word? x
    some ⟨_, Term.un op x⟩
  | _ => none

/-- The names of word operators. -/
def binNames : List (String × BvBin) :=
  [("bvadd", .add), ("bvsub", .sub), ("bvmul", .mul), ("bvudiv", .udiv), ("bvsdiv", .sdiv),
    ("bvurem", .urem), ("bvsrem", .srem), ("bvsmod", .smod), ("bvand", .and), ("bvor", .or),
    ("bvxor", .xor), ("bvshl", .shl), ("bvlshr", .lshr), ("bvashr", .ashr)]

def cmpNames : List (String × BvCmp) :=
  [("bvult", .ult), ("bvule", .ule), ("bvugt", .ugt), ("bvuge", .uge), ("bvslt", .slt),
    ("bvsle", .sle), ("bvsgt", .sgt), ("bvsge", .sge)]

def unNames : List (String × BvUn) := [("bvneg", .neg), ("bvnot", .not)]

/-- An operator, known by its name, on arguments. -/
def applyNamed (name : String) (args : List SomeTerm) : Option SomeTerm :=
  match binNames.lookup name, cmpNames.lookup name, unNames.lookup name with
  | some op, _, _ => binWords op args
  | _, some op, _ => cmpWords op args
  | _, _, some op => unWord op args
  | none, none, none =>
    match name, args with
    | "not", [⟨.bool, p⟩] => some ⟨_, p.not⟩
    | "and", _ => connective Term.and args
    | "or", _ => connective Term.or args
    | "xor", _ => connective Term.xor args
    | "=>", _ | "implies", _ => do return ⟨_, ← imply (← truths args)⟩
    | "=", _ | "iff", _ => equal args
    | "distinct", _ => distinct args
    | "ite", [⟨.bool, c⟩, ⟨s, x⟩, ⟨s', y⟩] | "if", [⟨.bool, c⟩, ⟨s, x⟩, ⟨s', y⟩] =>
      if h : s' = s then some ⟨_, Term.ite c x (h ▸ y)⟩ else none
    | "concat", [⟨.bv _, x⟩, ⟨.bv _, y⟩] => some ⟨_, Term.concat x y⟩
    | "select", [⟨.mem a _, m⟩, ⟨.bv a', x⟩] =>
      if h : a' = a then some ⟨_, Term.select m (h ▸ x)⟩ else none
    | "store", [⟨.mem a c, m⟩, ⟨.bv a', x⟩, ⟨.bv c', v⟩] =>
      if h : a' = a ∧ c' = c then some ⟨_, Term.store m (h.1 ▸ x) (h.2 ▸ v)⟩ else none
    | _, _ => none

/-- An operator with numbers on one word. -/
def applyIndexed (name : String) (indices : List Nat) (x : SomeTerm) : Option SomeTerm := do
  let ⟨w, x⟩ ← word? x
  match name, indices with
  | "extract", [hi, lo] => if lo ≤ hi ∧ hi < w then some ⟨_, Term.slice hi lo x⟩ else none
  | "zero_extend", [n] => some ⟨_, Term.zeroExtend n x⟩
  | "sign_extend", [n] => some ⟨_, Term.signExtend n x⟩
  | _, _ => none

/-- The word `(_ bvN w)`. -/
def indexedNumeral (name : String) (w : Nat) : Option SomeTerm :=
  match name.toList with
  | 'b' :: 'v' :: ds =>
    if ds.all Char.isDigit && 0 < w then
      (Text.digits? 10 ds).map fun n => ⟨.bv w, Term.numeral w n⟩
    else none
  | _ => none

def numbers : List Datum → Option (List Nat)
  | [] => some []
  | .atom (.number ds) :: rest => do return (← Text.digits? 10 ds) :: (← numbers rest)
  | _ => none

/-- A token that is a term by itself. -/
def leaf (decls : Decls) : Token → Option SomeTerm
  | .symbol name =>
    match decls.lookup name with
    | some t => some t
    | none =>
      if name = "true" then some ⟨_, Term.truth true⟩
      else if name = "false" then some ⟨_, Term.truth false⟩
      else none
  | .hex ds => (Text.digits? 16 ds).map fun n => ⟨_, Term.numeral (4 * ds.length) n⟩
  | .bits ds => (Text.digits? 2 ds).map fun n => ⟨_, Term.numeral ds.length n⟩
  | _ => none

/-- The term of a datum. The values of a `let` are read outside it, all at once. -/
def term : Nat → Decls → Datum → Option SomeTerm
  | 0, _, _ => none
  | fuel + 1, decls, x =>
    match x with
    | .atom t => leaf decls t
    | .list [.atom (.symbol "_"), .atom (.symbol name), .atom (.number w)] => do
      indexedNumeral name (← Text.digits? 10 w)
    | .list [.atom (.symbol "let"), .list bindings, body] => do
      let bound ← bindings.mapM fun b =>
        match b with
        | .list [.atom (.symbol name), value] => (term fuel decls value).map (name, ·)
        | _ => none
      term fuel (bound ++ decls) body
    | .list (.atom (.symbol "!") :: body :: _) => term fuel decls body
    | .list [.list (.atom (.symbol "_") :: .atom (.symbol name) :: indices), arg] => do
      applyIndexed name (← numbers indices) (← term fuel decls arg)
    | .list (.atom (.symbol name) :: args) =>
      if args.isEmpty || (decls.lookup name).isSome then none
      else do applyNamed name (← args.mapM (term fuel decls))
    | _ => none

/-- The assertion of a command; commands of other names say nothing. -/
def assertion (fuel : Nat) (decls : Decls) : Datum → Option (Option (Term .bool))
  | .list (.atom (.symbol "assert") :: args) =>
    match args with
    | [x] =>
      match term fuel decls x with
      | some ⟨.bool, p⟩ => some (some p)
      | _ => none
    | _ => none
  | .list (.atom (.symbol _) :: _) => some none
  | _ => none

/-- Whether one text starts with another. -/
def startsWith (front : List Char) (cs : List Char) : Bool := cs.take front.length == front

/-- The assertions of a text. Every declared name must stand for a constant. -/
def assertions (decls : Decls) (text : String) : Option (List (Term .bool)) := do
  let body := Text.trim Text.isMargin text.toList
  let script := if startsWith "(assert".toList body then String.ofList body
    else "(assert " ++ String.ofList body ++ ")"
  if !decls.all (fun d => d.2.2.size == 1) then none
  let found ← (← data? script).mapM (assertion (script.length + 1) decls)
  return found.filterMap fun p => p

end Precond.Smt
