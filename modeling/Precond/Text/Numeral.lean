import Precond.Limits
import Precond.Text.Digit

/-! Blank characters, trimming, and reading numerals. Two sets of blanks are in use: the ones that
surround a numeral are those of the Unicode property `White_Space`; the ones that surround a formula
also contain the four information separators. A numeral may be surrounded by blanks and may separate
its digits by single low lines. Integers come in two forms: plain decimal ones, and ones whose base is
told by a mark (`0x`, `0o`, `0b`), where a decimal numeral other than zero has no leading zero. The
number of digits of a decimal integer is bounded. -/

namespace Precond.Text

/-- The blanks that may surround a numeral. -/
def isBlank (c : Char) : Bool :=
  let n := c.toNat
  (9 ≤ n && n ≤ 13) || n == 0x20 || n == 0x85 || n == 0xa0 || n == 0x1680 ||
    (0x2000 ≤ n && n ≤ 0x200a) || n == 0x2028 || n == 0x2029 || n == 0x202f || n == 0x205f ||
    n == 0x3000

/-- The blanks that may surround a formula. -/
def isMargin (c : Char) : Bool :=
  isBlank c || (0x1c ≤ c.toNat && c.toNat ≤ 0x1f)

/-- Drop the characters of a class from both ends. -/
def trim (p : Char → Bool) (cs : List Char) : List Char :=
  ((cs.dropWhile p).reverse.dropWhile p).reverse

/-- The value of an ASCII digit or letter as a digit. -/
def digitValue? (base : Nat) (c : Char) : Option Nat :=
  let d? :=
    if '0' ≤ c && c ≤ '9' then some (c.toNat - 48)
    else if 'a' ≤ c && c ≤ 'z' then some (c.toNat - 87)
    else if 'A' ≤ c && c ≤ 'Z' then some (c.toNat - 55)
    else none
  d?.filter (· < base)

/-- Digits with single low lines between them. `open_` says that a digit must come next. -/
def digitsFrom (base acc : Nat) (open_ : Bool) : List Char → Option Nat
  | [] => if open_ then none else some acc
  | c :: cs =>
    if c = '_' then
      if open_ then none else digitsFrom base acc true cs
    else
      match digitValue? base c with
      | some d => digitsFrom base (acc * base + d) false cs
      | none => none

def digits? (base : Nat) (cs : List Char) : Option Nat := digitsFrom base 0 true cs

/-- Decimal digits, if they are not too many. -/
def decimalDigits? (cs : List Char) : Option Nat :=
  if Limits.numeralDigits < (cs.filter (· ≠ '_')).length then none else digits? 10 cs

/-- Split off a sign. -/
def splitSign : List Char → Bool × List Char
  | '-' :: cs => (true, cs)
  | '+' :: cs => (false, cs)
  | cs => (false, cs)

def withSign (negative : Bool) (n : Nat) : Int := if negative then -(n : Int) else n

/-- The characters of a numeral without the surrounding blanks, digits in ASCII form. -/
def numeralChars (s : String) : List Char := trim isBlank (s.toList.map foldDigit)

/-- A decimal integer. -/
def decimal? (s : String) : Option Int :=
  let (neg, cs) := splitSign (numeralChars s)
  (decimalDigits? cs).map (withSign neg)

/-- The magnitude of an integer whose base is told by a mark. A low line may follow the mark. -/
def markedDigits? : List Char → Option Nat
  | '0' :: c :: cs =>
    let after := match cs with
      | '_' :: r => r
      | r => r
    if c = 'x' || c = 'X' then digits? 16 after
    else if c = 'o' || c = 'O' then digits? 8 after
    else if c = 'b' || c = 'B' then digits? 2 after
    else (decimalDigits? ('0' :: c :: cs)).filter (· == 0)
  | cs => decimalDigits? cs

/-- An integer whose base is told by a mark. -/
def integer? (s : String) : Option Int :=
  let (neg, cs) := splitSign (numeralChars s)
  (markedDigits? cs).map (withSign neg)

/-- Remove the low lines of a numeral, each of which must stand between two digits. -/
def dropLines (before : Bool) : List Char → Option (List Char)
  | [] => some []
  | '_' :: c :: cs =>
    if before && c.isDigit then dropLines false (c :: cs) else none
  | '_' :: [] => none
  | c :: cs => (dropLines c.isDigit cs).map (c :: ·)
termination_by cs => cs.length

/-- The value `m · 10 ^ e`, rounded to the nearest float. -/
def scientific (m : Nat) (e : Int) : Float :=
  let size : Int := (toString m).length
  if m = 0 then 0.0
  else if 400 < size + e then 1.0 / 0.0
  else if size + e < -400 then 0.0
  else Float.ofScientific m (e < 0) e.natAbs

/-- The exponent part of a numeral. -/
def exponent? : List Char → Option Int
  | [] => some 0
  | c :: cs =>
    if c = 'e' || c = 'E' then
      let (neg, ds) := splitSign cs
      if ds.all Char.isDigit then (digits? 10 ds).map (withSign neg) else none
    else none

/-- A decimal numeral with an optional fraction and exponent. -/
def fraction? (cs : List Char) : Option Float := do
  let whole := cs.takeWhile Char.isDigit
  let rest := cs.dropWhile Char.isDigit
  let (part, rest) := match rest with
    | '.' :: r => (r.takeWhile Char.isDigit, r.dropWhile Char.isDigit)
    | r => ([], r)
  let m ← digits? 10 (whole ++ part)
  let e ← exponent? rest
  return scientific m (e - part.length)

/-- A decimal numeral with an optional fraction and exponent, an infinity or a NaN. -/
def float? (s : String) : Option Float := do
  let (neg, cs) := splitSign (← dropLines false (numeralChars s))
  let word := String.ofList (cs.map Char.toLower)
  let x ← if word = "inf" || word = "infinity" then some (1.0 / 0.0)
    else if word = "nan" then some (0.0 / 0.0)
    else fraction? cs
  return if neg then -x else x

end Precond.Text
