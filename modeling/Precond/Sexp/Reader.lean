import Precond.Decimal.Shortest
import Precond.Text.Numeral

/-! S-expression data, their text, and reading them. An atom is an integer if it reads as one, else a
float, else a symbol. -/

namespace Precond

inductive Sexp
  | symbol (name : String)
  | int (i : Int)
  | float (x : Float)
  | text (s : String)
  | list (items : List Sexp)
  | bracket (items : List Sexp)
  | quoted (datum : Sexp)
  deriving Inhabited

namespace Sexp

/-- The characters that a symbol writes behind a backslash. -/
def symbolSpecials : List Char :=
  ['\\', '\'', '\x60', '"', '(', ')', '[', ']', ' ', ',', '?', ';', '#']

/-- The escapes of a text: the letter behind the backslash and what it stands for. -/
def textEscapes : List (Char × Char) :=
  [('\\', '\\'), ('"', '"'), ('b', '\x08'), ('f', '\x0c'), ('n', '\n'), ('r', '\r'), ('t', '\t')]

def showSymbol (name : String) : String :=
  String.join <| name.toList.map fun c =>
    if symbolSpecials.contains c then String.ofList ['\\', c] else c.toString

def showText (s : String) : String :=
  let body := s.toList.map fun c =>
    match textEscapes.find? fun e => e.2 == c with
    | some (letter, _) => String.ofList ['\\', letter]
    | none => c.toString
  "\"" ++ String.join body ++ "\""

mutual

def toText : Sexp → String
  | symbol name => showSymbol name
  | int i => toString i
  | float x => Decimal.ofFloat x
  | text s => showText s
  | list items => "(" ++ " ".intercalate (toTexts items) ++ ")"
  | bracket items => "[" ++ " ".intercalate (toTexts items) ++ "]"
  | quoted d => "'" ++ toText d

def toTexts : List Sexp → List String
  | [] => []
  | x :: xs => toText x :: toTexts xs

end

def isSpace (c : Char) : Bool :=
  c == ' ' || c == '\t' || c == '\n' || c == '\r' || c == '\x0b' || c == '\x0c'

/-- The bracket that closes an opening one. -/
def closer? : Char → Option Char
  | '(' => some ')'
  | '[' => some ']'
  | _ => none

def endsAtom (c : Char) : Bool :=
  isSpace c || "()[]\";".toList.contains c

/-- The text behind the end of the line; the end of the line is part of a comment. -/
def skipLine (cs : List Char) : List Char := (cs.dropWhile (· != '\n')).drop 1

/-- The characters of an atom. A backslash hides one of the special characters and is otherwise
kept; it may not come last. -/
def atomChars : List Char → Option (List Char × List Char)
  | [] => some ([], [])
  | '\\' :: [] => none
  | '\\' :: c :: cs =>
    (atomChars cs).map fun (as, rest) =>
      (if symbolSpecials.contains c then c :: as else '\\' :: c :: as, rest)
  | c :: cs =>
    if endsAtom c then some ([], c :: cs)
    else (atomChars cs).map fun (as, rest) => (c :: as, rest)

def atom (token : String) : Sexp :=
  match Text.decimal? token with
  | some i => .int i
  | none =>
    match Text.float? token with
    | some x => .float x
    | none => .symbol token

/-- The rest of a text behind its opening mark. -/
def textBody : List Char → Option (List Char × List Char)
  | [] => none
  | '"' :: cs => some ([], cs)
  | '\\' :: [] => none
  | '\\' :: c :: cs =>
    (textBody cs).map fun (ts, rest) =>
      match textEscapes.lookup c with
      | some d => (d :: ts, rest)
      | none => ('\\' :: c :: ts, rest)
  | c :: cs => (textBody cs).map fun (ts, rest) => (c :: ts, rest)

/-- The data up to a closing bracket or the end of the text. -/
def series : Nat → List Char → Option (List Sexp × List Char)
  | 0, _ => none
  | _ + 1, [] => some ([], [])
  | fuel + 1, c :: cs =>
    if isSpace c then series fuel cs
    else if c = ';' then series fuel (skipLine cs)
    else if c = ')' || c = ']' then some ([], c :: cs)
    else if c = '"' then do
      let (s, rest) ← textBody cs
      let (xs, rest) ← series fuel rest
      return (.text (String.ofList s) :: xs, rest)
    else if c = '\'' then
      match series fuel cs with
      | some (x :: xs, rest) => some (.quoted x :: xs, rest)
      | _ => none
    else
      match closer? c with
      | some close => do
        let (inner, rest) ← series fuel cs
        match rest with
        | [] => none
        | d :: rest =>
          if d = close then
            let (xs, rest) ← series fuel rest
            return ((if c = '(' then .list inner else .bracket inner) :: xs, rest)
          else none
      | none => do
        let (as, rest) ← atomChars (c :: cs)
        let (xs, rest) ← series fuel rest
        return (atom (String.ofList as) :: xs, rest)

/-- The one datum of a text. -/
def ofText? (s : String) : Option Sexp :=
  match series (s.length + 1) s.toList with
  | some ([x], []) => some x
  | _ => none

end Sexp

end Precond
