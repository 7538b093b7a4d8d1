import Precond.IR.Exp

/-! Processor architectures: registers, memory, and the calling convention. -/

namespace Precond.IR

structure Arch where
  name : String
  addrSize : Nat
  endian : Endian
  gprs : List Var
  sp : Var
  mem : Var
  inputRegs : List Var
  callerSaved : List Var
  calleeSaved : List Var
  returnReg : Option Var
  flags : List Var
  /-- Whether a return takes its address from the stack. -/
  popsReturnAddr : Bool
  deriving DecidableEq, Repr, Inhabited

namespace Arch

/-- Append an item unless it is present. -/
def addNew {α} [DecidableEq α] (xs : List α) (x : α) : List α :=
  if x ∈ xs then xs else xs ++ [x]

/-- The general registers, the flags, the stack pointer and the memory. -/
def registers (a : Arch) : List Var :=
  (a.flags ++ [a.sp, a.mem]).foldl addNew a.gprs

def reg? (a : Arch) (name : String) : Option Var :=
  a.registers.find? (·.name == name)

/-- Registers of one width. -/
def regs (width : Nat) (names : List String) : List Var :=
  names.map (⟨·, .word width⟩)

def x8664 : Arch :=
  let regs := regs 64
  { name := "x86_64"
    addrSize := 64
    endian := .little
    gprs := regs ["RAX", "RBX", "RCX", "RDX", "RSI", "RDI", "RSP", "RBP",
      "R8", "R9", "R10", "R11", "R12", "R13", "R14", "R15"]
    sp := ⟨"RSP", .word 64⟩
    mem := ⟨"mem", .memory 64 8⟩
    inputRegs := regs ["RDI", "RSI", "RDX", "RCX", "R8", "R9"]
    callerSaved := regs ["RAX", "RCX", "RDX", "RSI", "RDI", "R8", "R9", "R10", "R11"]
    calleeSaved := regs ["RBX", "RSP", "RBP", "R12", "R13", "R14", "R15"]
    returnReg := some ⟨"RAX", .word 64⟩
    flags := Arch.regs 1 ["CF", "PF", "AF", "ZF", "SF", "OF", "DF"]
    popsReturnAddr := true }

def x86 : Arch :=
  let regs := regs 32
  { name := "x86"
    addrSize := 32
    endian := .little
    gprs := regs ["EAX", "EBX", "ECX", "EDX", "ESI", "EDI", "ESP", "EBP"]
    sp := ⟨"ESP", .word 32⟩
    mem := ⟨"mem", .memory 32 8⟩
    inputRegs := []
    callerSaved := regs ["EAX", "ECX", "EDX"]
    calleeSaved := regs ["EBX", "ESI", "EDI", "ESP", "EBP"]
    returnReg := some ⟨"EAX", .word 32⟩
    flags := Arch.regs 1 ["CF", "PF", "AF", "ZF", "SF", "OF", "DF"]
    popsReturnAddr := true }

def arm : Arch :=
  let regs := regs 32
  { name := "arm"
    addrSize := 32
    endian := .little
    gprs := regs ["R0", "R1", "R2", "R3", "R4", "R5", "R6", "R7", "R8", "R9", "R10", "R11", "R12",
      "SP", "LR"]
    sp := ⟨"SP", .word 32⟩
    mem := ⟨"mem", .memory 32 8⟩
    inputRegs := regs ["R0", "R1", "R2", "R3"]
    callerSaved := regs ["R0", "R1", "R2", "R3", "R12"]
    calleeSaved := regs ["R4", "R5", "R6", "R7", "R8", "R9", "R10", "R11", "SP"]
    returnReg := some ⟨"R0", .word 32⟩
    flags := Arch.regs 1 ["NF", "ZF", "CF", "VF"]
    popsReturnAddr := false }

/-- The supported architectures, in the order of their names. -/
def all : List Arch := [arm, x86, x8664]

def ofName? (name : String) : Option Arch := all.find? (·.name == name)

end Arch

end Precond.IR
