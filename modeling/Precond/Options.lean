import Precond.Limits
import Precond.Policy.Basic
import Precond.Schema

/-! Options of an analysis: their shape, and the combinations that make sense for one program and for
two. -/

namespace Precond

open Schema

/-- The contract of a subroutine, in SMT-LIB text. -/
structure UserContract where
  name : String
  pre : String
  post : String
  deriving DecidableEq, Repr, Inhabited

/-- The options with their defaults. -/
structure Options where
  /-- The subroutine to analyse. -/
  func : String := ""
  precond : String := ""
  postcond : String := ""
  tripAsserts : Bool := false
  checkNullDerefs : Bool := false
  checkInvalidDerefs : Bool := false
  checkDivByZero : Bool := false
  compareFuncCalls : Bool := false
  comparePostRegs : List String := []
  pointerRegs : List String := []
  /-- A pattern for the names or addresses of the subroutines to expand. -/
  inline : Option String := none
  unrollBound : Int := Limits.unrollBound
  useInputRegs : Bool := true
  /-- Reads of the first program at an address match reads of the second so much further. -/
  memOffset : Option Int := none
  /-- Match subroutines that have been renamed by their addresses. -/
  rewriteAddresses : Bool := false
  stackBase : Option Int := none
  stackSize : Option Int := none
  heapRange : Option (Int × Int) := none
  display : List String := []
  debug : List String := []
  renames : List (String × String) := []
  contracts : List UserContract := []
  rules : List String := []
  deriving DecidableEq, Repr, Inhabited

namespace Options

def displayable : List String := ["bir", "refuted-goals", "paths", "precond-internal", "precond-smtlib"]

def debuggable : List String :=
  ["z3-solver-stats", "z3-verbose", "constraint-stats", "eval-constraint-stats"]

/-- Texts from a list of allowed ones; all others are named together. -/
def choices (field : String) (allowed : List String) : Check (List String) :=
  Check.guarded (Check.listOf Check.string) fun values =>
    match values.filter (!allowed.contains ·) with
    | [] => none
    | unknown => some <| .refused <|
      "unsupported " ++ field ++ " value(s) " ++ Text.quoteList unknown ++ "; expected any of " ++
        Text.quoteList allowed

def heapCheck : Check (Option (Int × Int)) :=
  Check.guarded (Check.nullable (Check.pair Check.integer Check.integer)) fun range =>
    match range with
    | some (lo, hi) =>
      if hi < lo then some <| .refused <|
        "heap_range lower bound " ++ Text.hexInt lo ++ " exceeds upper bound " ++ Text.hexInt hi
      else none
    | none => none

def contractCheck : Check UserContract := Check.object fun fs =>
  UserContract.mk <$> fs.required "name" Check.nonEmptyString
    <*> fs.withDefault "pre" Check.string "true"
    <*> fs.withDefault "post" Check.string "true"

def fieldNames : List String :=
  ["func", "precond", "postcond", "trip_asserts", "check_null_derefs", "check_invalid_derefs",
    "check_div_by_zero", "compare_func_calls", "compare_post_reg_values", "pointer_reg_list",
    "inline", "num_unroll", "use_fun_input_regs", "mem_offset", "rewrite_addresses", "stack_base",
    "stack_size", "heap_range", "show", "debug", "func_name_map", "user_func_spec", "fun_specs"]

/-- Refuse each field that is not an option. -/
def noExtra (fs : Fields) : Checked Unit :=
  match (fs.filter fun f => !fieldNames.contains f.1).map fun f =>
      (⟨[.field f.1], .extraForbidden⟩ : Issue) with
  | [] => .ok ()
  | issues => .error issues

def fieldsCheck (fs : Fields) : Checked Options :=
  Options.mk <$> fs.withDefault "func" Check.string ""
    <*> fs.withDefault "precond" Check.string ""
    <*> fs.withDefault "postcond" Check.string ""
    <*> fs.withDefault "trip_asserts" Check.boolean false
    <*> fs.withDefault "check_null_derefs" Check.boolean false
    <*> fs.withDefault "check_invalid_derefs" Check.boolean false
    <*> fs.withDefault "check_div_by_zero" Check.boolean false
    <*> fs.withDefault "compare_func_calls" Check.boolean false
    <*> fs.withDefault "compare_post_reg_values" (Check.listOf Check.string) []
    <*> fs.withDefault "pointer_reg_list" (Check.listOf Check.string) []
    <*> fs.optional "inline" Check.string
    <*> fs.withDefault "num_unroll"
      (Check.guarded Check.integer fun n => if n < 0 then some .notAtLeast else none)
      Limits.unrollBound
    <*> fs.withDefault "use_fun_input_regs" Check.boolean true
    <*> fs.optional "mem_offset" Check.integer
    <*> fs.withDefault "rewrite_addresses" Check.boolean false
    <*> fs.optional "stack_base" Check.integer
    <*> fs.optional "stack_size"
      (Check.guarded Check.integer fun n => if n ≤ 0 then some .notAbove else none)
    <*> fs.withDefault "heap_range" heapCheck none
    <*> fs.withDefault "show" (choices "show" displayable) []
    <*> fs.withDefault "debug" (choices "debug" debuggable) []
    <*> fs.withDefault "func_name_map" (Check.table Check.string) []
    <*> fs.withDefault "user_func_spec" (Check.listOf contractCheck) []
    <*> fs.withDefault "fun_specs" (choices "fun_specs" (CallRule.named.map (·.1))) []

/-- Options as an object without other fields. -/
def check : Check Options := Check.object fun fs => Checked.seq
  (Except.map (fun o _ => o) (fieldsCheck fs)) fun _ => noExtra fs

/-- The options that data stands for; data without content stands for the defaults. -/
def ofJson (j : Json) : Except Fault Options :=
  match check (if j.isVoid then .obj [] else j) with
  | .ok o => .ok o
  | .error issues => .error (.config (.options issues))

/-- The options in use that need a second program, by name. -/
def comparative (o : Options) : List String :=
  ([("check_invalid_derefs", o.checkInvalidDerefs), ("compare_func_calls", o.compareFuncCalls),
    ("compare_post_reg_values", !o.comparePostRegs.isEmpty), ("mem_offset", o.memOffset.isSome),
    ("rewrite_addresses", o.rewriteAddresses),
    ("func_name_map", !o.renames.isEmpty)].filter (·.2)).map (·.1)

/-- Refuse options that make no sense for a number of programs. -/
def validateFor (o : Options) (programs : Int) : Except ConfigFault Unit :=
  if programs ≠ 1 && programs ≠ 2 then .error (.programCount programs)
  else if o.func.isEmpty then .error .noFunction
  else if o.memOffset.isSome && o.rewriteAddresses then .error .offsetWithRenaming
  else if programs = 1 && !o.comparative.isEmpty then .error (.comparative o.comparative)
  else .ok ()

/-- The bounds of the stack, if one of its ends is given. -/
def stackRange (o : Options) : Option (Int × Int) :=
  if o.stackBase.isNone && o.stackSize.isNone then none
  else
    let base := o.stackBase.getD Limits.stackBase
    some (base - o.stackSize.getD Limits.stackSize, base)

end Options

end Precond
