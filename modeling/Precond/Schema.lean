import Precond.Json.Basic
import Precond.Text.Digit
import Precond.Text.Numeral

/-! Checking the shape of data. A check either gives a value or lists all defects it finds, each with
its place; the checks of several fields report together. Numbers and truth values may also be given
by the texts and numbers that read as them. -/

namespace Precond.Schema

/-- A step into data: the field of an object or the item of an array. -/
inductive Step
  | field (name : String)
  | item (i : Nat)
  deriving DecidableEq, Repr, Inhabited

inductive Defect
  | missing
  | extraForbidden
  | notString
  | stringTooShort
  | notList
  | notTable
  | notModel
  | notTuple
  | tooShort
  | tooLong
  | notInt
  | intParsing
  | intSize
  | intFraction
  | notFinite
  | notAtLeast
  | notAbove
  | notBool
  | boolParsing
  | notLiteral
  | notChoice
  /-- A value of the right shape that a rule of the field refuses. -/
  | refused (why : String)
  deriving DecidableEq, Repr, Inhabited

/-- The published name of a defect. -/
def Defect.code : Defect → String
  | missing => "missing"
  | extraForbidden => "extra_forbidden"
  | notString => "string_type"
  | stringTooShort => "string_too_short"
  | notList => "list_type"
  | notTable => "dict_type"
  | notModel => "model_type"
  | notTuple => "tuple_type"
  | tooShort => "too_short"
  | tooLong => "too_long"
  | notInt => "int_type"
  | intParsing => "int_parsing"
  | intSize => "int_parsing_size"
  | intFraction => "int_from_float"
  | notFinite => "finite_number"
  | notAtLeast => "greater_than_equal"
  | notAbove => "greater_than"
  | notBool => "bool_type"
  | boolParsing => "bool_parsing"
  | notLiteral => "literal_error"
  | notChoice => "enum"
  | refused _ => "value_error"

structure Issue where
  path : List Step
  defect : Defect
  deriving DecidableEq, Repr, Inhabited

def Issue.under (step : Step) (i : Issue) : Issue := { i with path := step :: i.path }

/-- A value, or the defects that stand in its way. -/
def Checked (α : Type) := Except (List Issue) α

namespace Checked

variable {α β : Type}

def ok (x : α) : Checked α := Except.ok x

def fail (d : Defect) : Checked α := Except.error [⟨[], d⟩]

def under (step : Step) (c : Checked α) : Checked α :=
  Except.mapError (List.map (Issue.under step)) c

def bind (c : Checked α) (f : α → Checked β) : Checked β := Except.bind c f

/-- Both values, or the defects of both. -/
def seq (f : Checked (α → β)) (x : Unit → Checked α) : Checked β :=
  match f, x () with
  | .ok f, .ok x => .ok (f x)
  | .ok _, .error e => .error e
  | .error e, .ok _ => .error e
  | .error e, .error e' => .error (e ++ e')

instance : Applicative Checked where
  pure := ok
  seq := seq

/-- All values, or all defects. -/
def all : List (Checked α) → Checked (List α)
  | [] => ok []
  | c :: cs => seq (Except.map List.cons c) fun _ => all cs

end Checked

abbrev Check (α : Type) := Json → Checked α

namespace Check

variable {α β : Type}

def string : Check String
  | .str s => .ok s
  | _ => .fail .notString

def nonEmptyString : Check String
  | .str "" => .fail .stringTooShort
  | .str s => .ok s
  | _ => .fail .notString

/-- The integer a text reads as; it may end in a point and zeros. -/
def integerOfText? (s : String) : Option Int :=
  let cs := Text.trim Text.isBlank s.toList
  let (neg, body) := Text.splitSign cs
  let whole := body.takeWhile (· != '.')
  let tail := (body.dropWhile (· != '.')).drop 1
  if tail.all (· == '0') then (Text.digits? 10 whole).map (Text.withSign neg) else none

/-- The integer of a float without fraction. -/
def integerOfFloat (x : Float) : Checked Int :=
  if x.isNaN || x.isInf then .fail .notFinite
  else if x.floor != x then .fail .intFraction
  else if -9223372036854775808.0 < x && x < 9223372036854775808.0 then .ok x.toInt64.toInt
  else .fail .intSize

def integer : Check Int
  | .int i => .ok i
  | .bool b => .ok (if b then 1 else 0)
  | .float x => integerOfFloat x
  | .str s =>
    match integerOfText? s with
    | some i => .ok i
    | none => .fail .intParsing
  | _ => .fail .notInt

def truthWords : List (String × Bool) :=
  ["0", "off", "f", "false", "n", "no"].map (·, false) ++
    ["1", "on", "t", "true", "y", "yes"].map (·, true)

def boolean : Check Bool
  | .bool b => .ok b
  | .int i => if i = 0 then .ok false else if i = 1 then .ok true else .fail .boolParsing
  | .float x => if x == 0.0 then .ok false else if x == 1.0 then .ok true else .fail .notBool
  | .str s =>
    match truthWords.lookup (String.ofList (s.toList.map Char.toLower)) with
    | some b => .ok b
    | none => .fail .boolParsing
  | _ => .fail .notBool

def nullable (c : Check α) : Check (Option α)
  | .null => .ok none
  | j => Except.map some (c j)

/-- Check the items of an array in order. -/
def items (c : Check α) (i : Nat) : List Json → List (Checked α)
  | [] => []
  | x :: xs => (c x).under (.item i) :: items c (i + 1) xs

/-- An array. An array that is too long is reported alone, one that is too short only if all its
items are right. -/
def list (c : Check α) (least : Nat) (most : Option Nat) : Check (List α)
  | .arr xs =>
    if most.any (· < xs.length) then .fail .tooLong
    else (Checked.all (items c 0 xs)).bind fun ys =>
      if ys.length < least then .fail .tooShort else .ok ys
  | _ => .fail .notList

def listOf (c : Check α) : Check (List α) := list c 0 none

/-- An array of two items. -/
def pair (c : Check α) (d : Check β) : Check (α × β)
  | .arr xs =>
    if 2 < xs.length then .fail .tooLong
    else
      let first : Checked α := match xs[0]? with
        | some x => c x
        | none => .fail .missing
      let second : Checked β := match xs[1]? with
        | some x => d x
        | none => .fail .missing
      Prod.mk <$> first.under (.item 0) <*> second.under (.item 1)
  | _ => .fail .notTuple

/-- An object whose fields are all of one kind. -/
def table (c : Check α) : Check (List (String × α))
  | .obj fields =>
    Checked.all (fields.map fun (k, x) => Except.map (k, ·) ((c x).under (.field k)))
  | _ => .fail .notTable

/-- A value that a further rule accepts. -/
def guarded (c : Check α) (rule : α → Option Defect) : Check α := fun j =>
  (c j).bind fun x =>
    match rule x with
    | none => .ok x
    | some d => .fail d

end Check

/-- The fields of an object under check. -/
abbrev Fields := List (String × Json)

namespace Fields

variable {α : Type}

/-- The value of a field that must be present. -/
def required (fs : Fields) (key : String) (c : Check α) : Checked α :=
  match fs.lookup key with
  | some x => (c x).under (.field key)
  | none => (Checked.fail .missing).under (.field key)

/-- The value of a field that has a default. -/
def withDefault (fs : Fields) (key : String) (c : Check α) (default : α) : Checked α :=
  match fs.lookup key with
  | some x => (c x).under (.field key)
  | none => .ok default

/-- A field that may be absent or null. -/
def optional (fs : Fields) (key : String) (c : Check α) : Checked (Option α) :=
  fs.withDefault key (Check.nullable c) none

end Fields

/-- An object whose fields are checked together. -/
def Check.object {α : Type} (c : Fields → Checked α) : Check α
  | .obj fields => c fields
  | _ => .fail .notModel

end Precond.Schema
