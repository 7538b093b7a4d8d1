/-! The bounds and memory regions in force unless others are given, and how large numbers may be. -/

namespace Precond.Limits

/-- How often a loop is unrolled. -/
def unrollBound : Int := 5

/-- The highest address of the stack. -/
def stackBase : Int := 0x00007fffffffffff

def stackSize : Int := 0xffff

def stack : Int × Int := (stackBase - stackSize, stackBase)

def heap : Int × Int := (0, 0xffffffff)

/-- How long a solver may take, in milliseconds. -/
def solverTime : Nat := 30000

/-- How many digits a decimal numeral may have. -/
def numeralDigits : Nat := 4300

/-- How many digits of 30 bits an integer may have. -/
def integerDigits : Nat := 2305843009213693945

/-- How many bytes of memory there can be: the addresses of a process have 47 bits. -/
def memory : Nat := 0x800000000000

end Precond.Limits
