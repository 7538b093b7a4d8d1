/-! The shortest decimal text of a float that reads back as that float. A finite float stands for
an interval of rationals: all that round to it. For one digit, two digits and so on, the two
decimals around the float on the grid of that many digits are tested; the first grid with a decimal
in the interval wins, and of two the nearer. -/

namespace Precond.Decimal

/-- A positive float as `mant · 2 ^ expo`; `low` says that the gap below it is half the gap above. -/
structure Binary where
  mant : Nat
  expo : Int
  low : Bool

def Binary.ofBits (bits : Nat) : Binary :=
  let frac : Nat := bits % Nat.pow 2 52
  let e : Nat := bits / Nat.pow 2 52 % Nat.pow 2 11
  if e = 0 then ⟨frac, -1074, false⟩
  else ⟨Nat.pow 2 52 + frac, (e : Int) - 1075, frac == 0 && 1 < e⟩

/-- The interval of a float over a common denominator: value, lower end and upper end as numerators
over `den`. -/
structure Interval where
  value : Nat
  lower : Nat
  upper : Nat
  den : Nat
  closed : Bool

def Binary.interval (b : Binary) : Interval :=
  let scale := Nat.pow 2 b.expo.toNat
  let below := if b.low then 1 else 2
  ⟨4 * b.mant * scale, (4 * b.mant - below) * scale, (4 * b.mant + 2) * scale,
    4 * Nat.pow 2 (-b.expo).toNat, b.mant % 2 == 0⟩

/-- Whether `n / den` lies in the interval. -/
def Interval.contains (i : Interval) (n den : Nat) : Bool :=
  let x := n * i.den
  if i.closed then i.lower * den ≤ x && x ≤ i.upper * den
  else i.lower * den < x && x < i.upper * den

/-- The decimal `m · 10 ^ e` of the interval on the grid of unit `10 ^ e`, if there is one. -/
def Interval.onGrid? (i : Interval) (e : Int) : Option Nat :=
  let up := Nat.pow 10 e.toNat
  let down := Nat.pow 10 (-e).toNat
  let num := i.value * down
  let den := i.den * up
  let m := num / den
  let lowIn := i.contains (m * up) down
  let highIn := i.contains ((m + 1) * up) down
  let twice := 2 * (num % den)
  if lowIn && highIn then
    some (if twice < den || (twice == den && m % 2 == 0) then m else m + 1)
  else if lowIn then some m
  else if highIn then some (m + 1)
  else none

/-- The least `p` with `value < 10 ^ p`, looked for from `start` upwards. -/
def Interval.magnitude (i : Interval) : Nat → Int → Int
  | 0, p => p
  | fuel + 1, p =>
    if i.value * Nat.pow 10 (-p).toNat < i.den * Nat.pow 10 p.toNat then p else i.magnitude fuel (p + 1)

/-- The first decimal of the interval among the grids of `k`, `k + 1`, … digits. -/
def Interval.shortestFrom (i : Interval) (p : Int) : Nat → Nat → Nat × Int
  | 0, k => (i.value * Nat.pow 10 (k - p).toNat / i.den, p - k)
  | fuel + 1, k =>
    match i.onGrid? (p - k) with
    | some m => (m, p - k)
    | none => i.shortestFrom p fuel (k + 1)

/-- The shortest decimal `m · 10 ^ e` of a positive finite float. -/
def shortest (bits : Nat) : Nat × Int :=
  let i := (Binary.ofBits bits).interval
  i.shortestFrom (i.magnitude 640 (-325)) 17 1

/-- How a shortest decimal is written. -/
structure Layout where
  /-- The position of the point from which on an exponent is written. -/
  high : Int
  /-- The position of the point up to which an exponent is written. -/
  low : Int
  expDigits : Nat

/-- A point more than three places before the first digit or more than sixteen behind it is written
with an exponent of at least two digits. -/
def Layout.standard : Layout := ⟨17, -4, 2⟩

/-- Digits and the position of the point in them, without trailing zeros. -/
def pointed (m : Nat) (e : Int) : List Char × Int :=
  let ds := Nat.toDigits 10 m
  let kept := (ds.reverse.dropWhile (· == '0')).reverse
  (kept, ds.length + e)

def Layout.write (l : Layout) (ds : List Char) (point : Int) : String :=
  let text (cs : List Char) := String.ofList cs
  if l.high ≤ point || point ≤ l.low then
    let e := point - 1
    let digits := toString e.natAbs
    let padded := text (List.replicate (l.expDigits - digits.length) '0') ++ digits
    let body := match ds with
      | [] => "0"
      | [d] => text [d]
      | d :: r => text [d] ++ "." ++ text r
    body ++ "e" ++ (if e < 0 then "-" else "+") ++ padded
  else if point ≤ 0 then
    "0." ++ text (List.replicate (-point).toNat '0') ++ text ds
  else
    let n := point.toNat
    let whole := ds.take n ++ List.replicate (n - ds.length) '0'
    let part := ds.drop n
    text whole ++ "." ++ (if part.isEmpty then "0" else text part)

/-- The text of a float: the shortest decimal that reads back as it. -/
def ofFloat (x : Float) : String :=
  if x.isNaN then "nan"
  else
    let bits := x.toBits.toNat
    let sign := if bits < Nat.pow 2 63 then "" else "-"
    let abs := bits % Nat.pow 2 63
    if x.isInf then sign ++ "inf"
    else if abs = 0 then sign ++ "0.0"
    else
      let (m, e) := shortest abs
      let (ds, point) := pointed m e
      sign ++ Layout.standard.write ds point

end Precond.Decimal
