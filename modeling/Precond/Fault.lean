import Precond.IR.Print
import Precond.Schema
import Precond.Term.Sort
import Precond.Text.Quoted

/-! Everything that can go wrong, by cause, with its wording. Configuration faults stop an analysis
before it starts, translation faults abort the walk that meets them, and the remaining ones are
uses that an operation does not support. -/

namespace Precond

open Text

/-- Why a text is not an expression. -/
inductive ExpFault
  | unreadable
  | noSymbol (found : String)
  | noInteger (found : String)
  | noTypedName (token : String)
  | noEndian (token : String)
  | badLiteral (token : String)
  | unknownVariable (token : String)
  | noExpression (found : String)
  | unknownOperator (head : String)
  | arity (head : String) (expected found : Nat)
  | unknownCast (kind : String)
  /-- A width made of digits that are no numeral. -/
  | badWidth
  /-- A literal of a width `w` for which `2 ^ w` has too many digits. -/
  | overflow
  /-- A literal of a width `w` for which there is no room for `2 ^ w`. -/
  | outOfMemory
  deriving DecidableEq, Repr, Inhabited

def ExpFault.message : ExpFault → String
  | unreadable | badWidth | overflow | outOfMemory => ""
  | noSymbol found => ": expected a symbol, got " ++ found
  | noInteger found => ": expected an integer, got " ++ found
  | noTypedName token => ": expected name:width, got " ++ quote token
  | noEndian token => ": expected le or be, got " ++ quote token
  | badLiteral token => ": bad literal " ++ quote token
  | unknownVariable token => ": unknown variable " ++ quote token
  | noExpression found => ": expected an expression, got " ++ found
  | unknownOperator head => ": unknown operator " ++ quote head
  | arity head expected found =>
    ": " ++ head ++ " takes " ++ toString expected ++ " operand(s), got " ++ toString found
  | unknownCast kind => ": unknown cast " ++ quote kind

/-- Why data is not a program. -/
inductive ProgramFault
  | notJson
  | shape (issues : List Schema.Issue)
  | unsupportedArch (name : String)
  | exp (text : String) (why : ExpFault)
  | shadowsRegister (sub var : String)
  | unknownVariable (place name : String)
  | gotoWithoutTarget (place : String)
  | callWithoutTarget (place : String)
  | interruptWithoutReturn (place : String)
  deriving DecidableEq, Repr, Inhabited

def unsupportedArchMessage (name : String) : String :=
  "Unsupported architecture '" ++ name ++ "'. Available architectures are: " ++
    quoteList (IR.Arch.all.map (·.name))

def ProgramFault.message : ProgramFault → String
  | notJson | shape _ => "Malformed program"
  | unsupportedArch name => unsupportedArchMessage name
  | exp text why => "Cannot parse expression " ++ quote text ++ why.message
  | shadowsRegister sub var => sub ++ ": variable " ++ var ++ " shadows a register"
  | unknownVariable place name => place ++ ": unknown variable " ++ quote name
  | gotoWithoutTarget place => place ++ ": goto without a target"
  | callWithoutTarget place => place ++ ": call without a target"
  | interruptWithoutReturn place => place ++ ": interrupt needs a direct return block"

/-- Why a text is not a pattern. -/
inductive PatternFault
  | invalid
  /-- A number of repetitions that is too large. -/
  | overflow
  /-- A number of repetitions with too many digits. -/
  | badDigits
  /-- Flags for the letters of ASCII and for those of all scripts. -/
  | flagsClash
  deriving DecidableEq, Repr, Inhabited

/-- Why an analysis cannot be set up. -/
inductive ConfigFault
  | program (why : ProgramFault)
  | unsupportedArch (name : String)
  | options (issues : List Schema.Issue)
  | programCount (n : Int)
  | noFunction
  | offsetWithRenaming
  /-- Options that need a second program. -/
  | comparative (used : List String)
  | functionMissing (name : String)
  | unknownSpec (name : String) (available : List String)
  | unknownOutputs (names : List String)
  | badPattern (text : String)
  | badFormula (text : String)
  deriving DecidableEq, Repr, Inhabited

def ConfigFault.message : ConfigFault → String
  | program why => why.message
  | unsupportedArch name => unsupportedArchMessage name
  | options _ => "Invalid options"
  | programCount n => "Expected one or two programs, got " ++ toString n ++ "."
  | noFunction => "Function is not provided for analysis."
  | offsetWithRenaming => "mem_offset and rewrite_addresses cannot be used together."
  | comparative used =>
    ", ".intercalate used ++ " only apply when comparing two programs."
  | functionMissing name => "Function " ++ name ++ " not found in the program."
  | unknownSpec name available =>
    "Unknown fun spec '" ++ name ++ "'. Available specs are: " ++ ", ".intercalate available
  | unknownOutputs names => "Unknown output register(s): " ++ quoteList names
  | badPattern text => "Invalid inline pattern " ++ quote text
  | badFormula text => "Could not parse SMT-LIB formula " ++ quote text

/-- Why an expression has no term. -/
inductive TranslationFault
  | unbound (name : String)
  | operandWidths (op : IR.BinOp) (left right : Nat)
  | castWidth (kind : IR.CastKind) (width : Int) (size : Nat)
  | storeWidth (value : Nat) (size : Int)
  | iteSorts (yes no : TSort)
  | extractRange (hi lo : Int) (size : Nat)
  | assignSorts (lhs : String) (value var : TSort)
  | needsWord (what : String) (found : TSort)
  | needsMemory (what : String) (found : TSort)
  | cellWidth (size : Int) (cell : Nat)
  deriving DecidableEq, Repr, Inhabited

namespace TranslationFault

/-- The published name of the class of a fault. -/
def title : TranslationFault → String
  | unbound _ => "UnboundVariable"
  | operandWidths .. | castWidth .. | storeWidth .. | iteSorts .. | extractRange ..
  | assignSorts .. => "WidthMismatch"
  | needsWord .. | needsMemory .. | cellWidth .. => "UnsupportedExpression"

def message : TranslationFault → String
  | unbound name => "Unbound variable: '" ++ name ++ "'"
  | operandWidths op l r =>
    "operator '" ++ op.toText ++ "' applied to " ++ toString l ++ "-bit and " ++ toString r ++
      "-bit operands"
  | castWidth kind width size =>
    kind.toText ++ ":" ++ toString width ++ " cast of a " ++ toString size ++ "-bit value"
  | storeWidth value size =>
    "storing a " ++ toString value ++ "-bit value as " ++ toString size ++ " bits"
  | iteSorts yes no => "ite branches of sorts " ++ yes.toText ++ " and " ++ no.toText
  | extractRange hi lo size =>
    "extract:" ++ toString hi ++ ":" ++ toString lo ++ " of a " ++ toString size ++ "-bit value"
  | assignSorts lhs value var =>
    "assigning " ++ value.toText ++ " to " ++ lhs ++ " of sort " ++ var.toText
  | needsWord what found => what ++ " needs a bit-vector, got " ++ found.toText
  | needsMemory what found => what ++ " needs a memory, got " ++ found.toText
  | cellWidth size cell =>
    toString size ++ "-bit access into memory of " ++ toString cell ++ "-bit cells"

end TranslationFault

inductive Fault
  | config (why : ConfigFault)
  | translation (why : TranslationFault)
  | unknownRegister (name arch : String)
  | noEntry (sub : String)
  /-- An operation on terms that has no well-sorted result. -/
  | illSorted
  /-- The width of a term that is not a word. -/
  | noWidth
  /-- The width of a variable that is not a word. -/
  | memoryWidth (name : String)
  /-- Data that is not a table of widths. -/
  | badTable (issues : List Schema.Issue)
  /-- Digits that are no numeral, or too many of them. -/
  | badDigits
  /-- A number that is too large. -/
  | overflow
  /-- A number for which there is no room. -/
  | outOfMemory
  /-- Flags of a pattern that exclude each other. -/
  | flagsClash
  | lengthsDiffer
  | missingEntry
  | handleUnset (name : String)
  | noDefaultSpec
  /-- The default call rule is asked for where there is none. -/
  | callsNothing
  /-- The walk has been given too few steps. -/
  | outOfFuel
  deriving DecidableEq, Repr, Inhabited

namespace Fault

/-- The wording of a fault, for the faults that have one. -/
def message? : Fault → Option String
  | config why => some why.message
  | translation why => some why.message
  | unknownRegister name arch =>
    some ("Could not find " ++ name ++ " in the registers of " ++ arch)
  | noEntry sub => some ("Subroutine " ++ sub ++ " has no entry block")
  | memoryWidth name => some (name ++ " is a memory variable")
  | lengthsDiffer => some "substitute: olds and news differ in length"
  | handleUnset name => some ("handle '" ++ name ++ "' used before it was set")
  | noDefaultSpec => some "Env has no default fun spec"
  | illSorted | noWidth | badTable _ | badDigits | overflow | outOfMemory | flagsClash
  | missingEntry | callsNothing | outOfFuel => none

end Fault

/-- The fault that stands for itself, where a text is not reported as no expression. -/
def ExpFault.bare? : ExpFault → Option Fault
  | badWidth => some .badDigits
  | overflow => some .overflow
  | outOfMemory => some .outOfMemory
  | _ => none

/-- The fault that stands for itself, where a text is not reported as no pattern. -/
def PatternFault.bare? : PatternFault → Option Fault
  | invalid => none
  | overflow => some .overflow
  | badDigits => some .badDigits
  | flagsClash => some .flagsClash

end Precond
