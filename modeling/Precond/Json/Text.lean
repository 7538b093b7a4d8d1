import Precond.Decimal.Shortest
import Precond.Json.Basic
import Precond.Text.Numeral

/-! Reading and writing JSON text. Besides the standard grammar the words `NaN`, `Infinity` and
`-Infinity` are numbers; of several fields with one key the last value counts. The number of digits of
an integer is bounded. Written text has no spaces, and only control characters, quotation marks and
backslashes are escaped. -/

namespace Precond.Json

/-! ### Reading -/

/-- Why a text is not read. -/
inductive TextFault
  | malformed
  | longInteger
  deriving DecidableEq, Repr

/-- Require what a reader may not find. -/
def need {α : Type} (x : Option α) : Except TextFault α := x.elim (.error .malformed) .ok

private def isSpace (c : Char) : Bool := c == ' ' || c == '\t' || c == '\n' || c == '\r'

def skipSpace (cs : List Char) : List Char := cs.dropWhile isSpace

/-- Remove a literal text in front. -/
def literal? : List Char → List Char → Option (List Char)
  | [], cs => some cs
  | w :: ws, c :: cs => if w = c then literal? ws cs else none
  | _ :: _, [] => none

/-- Four hexadecimal digits of an escape. -/
def hexEscape? : List Char → Option (Nat × List Char)
  | a :: b :: c :: d :: rest => do
    let n ← Text.digits? 16 [a, b, c, d]
    if [a, b, c, d].contains '_' then none else some (n, rest)
  | _ => none

/-- The character of an escape whose first unit is `unit`; a pair of surrogates makes one. -/
def joinSurrogates (unit : Nat) (rest : List Char) : Char × List Char :=
  if 0xd800 ≤ unit && unit < 0xdc00 then
    match rest with
    | '\\' :: 'u' :: more =>
      match hexEscape? more with
      | some (second, after) =>
        if 0xdc00 ≤ second && second < 0xe000 then
          (Char.ofNat (0x10000 + (unit - 0xd800) * 0x400 + (second - 0xdc00)), after)
        else ('\ufffd', rest)
      | none => ('\ufffd', rest)
    | _ => ('\ufffd', rest)
  else if 0xdc00 ≤ unit && unit < 0xe000 then ('\ufffd', rest)
  else (Char.ofNat unit, rest)

/-- The rest of a string behind its opening mark. -/
def stringBody : Nat → List Char → List Char → Option (String × List Char)
  | 0, _, _ => none
  | fuel + 1, acc, cs =>
    match cs with
    | '"' :: rest => some (String.ofList acc.reverse, rest)
    | '\\' :: 'u' :: rest => do
      let (unit, rest) ← hexEscape? rest
      let (c, rest) := joinSurrogates unit rest
      stringBody fuel (c :: acc) rest
    | '\\' :: c :: rest =>
      match "\"\\/bfnrt".toList.zip ['"', '\\', '/', '\x08', '\x0c', '\n', '\r', '\t'] |>.lookup c with
      | some d => stringBody fuel (d :: acc) rest
      | none => none
    | c :: rest => if c.toNat < 0x20 then none else stringBody fuel (c :: acc) rest
    | [] => none

def string? (cs : List Char) : Option (String × List Char) := stringBody (cs.length + 1) [] cs

private def natOf (ds : List Char) : Nat := (Text.digits? 10 ds).getD 0

/-- The fraction and exponent of a number, if either is present. -/
def tail? (cs : List Char) : Option (List Char × Int × List Char) :=
  let (part, afterPart) := match cs with
    | '.' :: r =>
      let ds := r.takeWhile Char.isDigit
      if ds.isEmpty then ([], cs) else (ds, r.dropWhile Char.isDigit)
    | r => ([], r)
  let expo := match afterPart with
    | c :: r =>
      if c = 'e' || c = 'E' then
        let (neg, r) := Text.splitSign r
        let ds := r.takeWhile Char.isDigit
        if ds.isEmpty then none else some (Text.withSign neg (natOf ds), r.dropWhile Char.isDigit)
      else none
    | [] => none
  match expo with
  | some (e, rest) => some (part, e, rest)
  | none => if part.isEmpty then none else some (part, 0, afterPart)

/-- A number. -/
def number (cs : List Char) : Except TextFault (Json × List Char) :=
  let (neg, body) := match cs with
    | '-' :: r => (true, r)
    | r => (false, r)
  let whole := match body with
    | '0' :: _ => ['0']
    | r => r.takeWhile Char.isDigit
  if whole.isEmpty then
    (need (literal? "Infinity".toList body)).map fun rest =>
      (.float (if neg then -1.0 / 0.0 else 1.0 / 0.0), rest)
  else
    let rest := body.drop whole.length
    match tail? rest with
    | none =>
      if Limits.numeralDigits < whole.length then .error .longInteger
      else .ok (.int (Text.withSign neg (natOf whole)), rest)
    | some (part, e, rest) =>
      let x := Text.scientific (natOf (whole ++ part)) (e - part.length)
      .ok (.float (if neg then -x else x), rest)

mutual

/-- A value in front of the text. -/
def value : Nat → List Char → Except TextFault (Json × List Char)
  | 0, _ => .error .malformed
  | fuel + 1, cs =>
    match cs with
    | '"' :: rest => (need (string? rest)).map fun (s, rest) => (.str s, rest)
    | '[' :: rest =>
      match skipSpace rest with
      | ']' :: rest => .ok (.arr [], rest)
      | rest => (items fuel rest).map fun (xs, rest) => (.arr xs, rest)
    | '\x7b' :: rest =>
      match skipSpace rest with
      | '\x7d' :: rest => .ok (.obj [], rest)
      | rest => (fields fuel [] rest).map fun (fs, rest) => (.obj fs, rest)
    | 'n' :: rest => (need (literal? "ull".toList rest)).map (.null, ·)
    | 't' :: rest => (need (literal? "rue".toList rest)).map (.bool true, ·)
    | 'f' :: rest => (need (literal? "alse".toList rest)).map (.bool false, ·)
    | 'N' :: rest => (need (literal? "aN".toList rest)).map (.float (0.0 / 0.0), ·)
    | cs => number cs

/-- The items of an array up to its bracket. -/
def items : Nat → List Char → Except TextFault (List Json × List Char)
  | 0, _ => .error .malformed
  | fuel + 1, cs => do
    let (x, rest) ← value fuel cs
    match skipSpace rest with
    | ']' :: rest => return ([x], rest)
    | ',' :: rest =>
      let (xs, rest) ← items fuel (skipSpace rest)
      return (x :: xs, rest)
    | _ => throw .malformed

/-- The fields of an object up to its brace. -/
def fields : Nat → List (String × Json) → List Char →
    Except TextFault (List (String × Json) × List Char)
  | 0, _, _ => .error .malformed
  | fuel + 1, acc, cs =>
    match cs with
    | '"' :: rest => do
      let (key, rest) ← need (string? rest)
      match skipSpace rest with
      | ':' :: rest =>
        let (x, rest) ← value fuel (skipSpace rest)
        let acc := Table.put acc key x
        match skipSpace rest with
        | '\x7d' :: rest => return (acc, rest)
        | ',' :: rest => fields fuel acc (skipSpace rest)
        | _ => throw .malformed
      | _ => throw .malformed
    | _ => .error .malformed

end

/-- The value of a whole text. -/
def ofText (text : String) : Except TextFault Json := do
  let cs := skipSpace text.toList
  let (x, rest) ← value (2 * cs.length + 2) cs
  if (skipSpace rest).isEmpty then return x else throw .malformed

/-! ### Writing -/

def escape (c : Char) : String :=
  if c == '"' then "\\\""
  else if c == '\\' then "\\\\"
  else if c == '\n' then "\\n"
  else if c == '\t' then "\\t"
  else if c == '\r' then "\\r"
  else if c.toNat < 0x20 || c.toNat == 0x7f then "\\u" ++ Text.hexPadded 4 c.toNat
  else c.toString

def writeString (out : String) (s : String) : String :=
  (s.toList.foldl (fun out c => out ++ escape c) (out.push '"')).push '"'

def writeFloat (x : Float) : String :=
  if x.isNaN then "NaN"
  else if x.isInf then (if x < 0 then "-Infinity" else "Infinity")
  else Decimal.ofFloat x

mutual

/-- Append the text of a value. -/
def writeTo (out : String) : Json → String
  | .null => out ++ "null"
  | .bool b => out ++ (if b then "true" else "false")
  | .int i => out ++ toString i
  | .float x => out ++ writeFloat x
  | .str s => writeString out s
  | .arr items => (writeItems (out.push '[') true items).push ']'
  | .obj fields => (writeFields (out.push '\x7b') true fields).push '\x7d'

def writeItems (out : String) (first : Bool) : List Json → String
  | [] => out
  | x :: xs => writeItems (writeTo (if first then out else out.push ',') x) false xs

def writeFields (out : String) (first : Bool) : List (String × Json) → String
  | [] => out
  | (k, x) :: fs =>
    let out := if first then out else out.push ','
    writeFields (writeTo ((writeString out k).push ':') x) false fs

end

def write (x : Json) : String := writeTo "" x

end Precond.Json
