import StackCode.Lowering.Block
import StackCode.Memory.Executable
import StackCode.X64.Machine

/-!
# Entering an image

An image is entered like any routine: the stack is aligned, the return address is on top,
and a data window may be mapped. The run ends by returning or by ending the process.
-/
namespace StackCode

open X64

/-- The surroundings of a program: the outside routines, the kernel, and how many bytes of stack
lie below the entry. -/
structure Surroundings where
  helpers : Lowering.Helpers
  kernel : Memory.Kernel
  stackSize : Nat

namespace Surroundings

def standard : Surroundings :=
  ⟨⟨0x1111111111111111, 0x2222222222222222⟩, .simple 0x7f0000000000 [], 8388608⟩

end Surroundings

/-- How a program ended. -/
inductive Exit where
  | returned
  | halted
  /-- it did what no program may do -/
  | stuck
  | unfinished
deriving DecidableEq, Repr

namespace Exit

def name : Exit → String
  | .returned => "ret"
  | .halted => "hlt"
  | .stuck => "stuck"
  | .unfinished => "unfinished"

end Exit

/-- What a program leaves behind. -/
structure Execution where
  exit : Exit
  output : String
  window : Option Memory.Window
deriving DecidableEq, Repr

namespace Execution

/-- Bytes of the caller's frame above the stack. -/
def frameSize : Nat := 256

/-- The aligned address below which the stack of a program begins. -/
def stackTop : UInt64 := 0x7ffe00000000

/-- The address that a program returns to. -/
def homeAddress : UInt64 := 0x400000

/-- More steps than a program takes that ends at all. -/
def stepLimit : Nat := 1000000000000

def host (place : Surroundings) (code : Memory.Code) : Host where
  image := code.bytes.toArray
  base := code.base
  input := place.helpers.input
  output := place.helpers.output
  home := homeAddress
  arithmetic := Binary64.ieee
  scratch _ := 0

/-- A stack of `size` bytes at the entry, with the return address on top. -/
def stack (size : Nat) : Memory.Region :=
  let base := stackTop - UInt64.ofNat size
  (Memory.Region.mk base (Array.replicate (size + frameSize) 0)).put (size - 8) homeAddress

/-- The machine at the entry. -/
def start (place : Surroundings) (code : Memory.Code) (window : Option Memory.Window)
    (input : Bytes) : State where
  rip := code.base
  regs := Regs.zero.set .rsp (stackTop - 8)
  xmm := .zero
  flags := .clear
  memory := ⟨stack place.stackSize, (window.map Memory.Region.ofWindow).getD .empty⟩
  streams := .ofInput input

def ofState (exit : Exit) (window : Option Memory.Window) (s : State) : Execution :=
  ⟨exit, s.streams.output, window.map fun w => ⟨w.base, s.memory.data.bytes⟩⟩

/-- Runs code that is entered. -/
def ofCode (place : Surroundings) (code : Memory.Code) (window : Option Memory.Window)
    (input : Bytes) : Execution :=
  match Ending.run (State.step (host place code)) stepLimit (start place code window input) with
  | .returned s => ofState .returned window s
  | .halted s => ofState .halted window s
  | .stuck => ⟨.stuck, "", window⟩
  | .unfinished => ⟨.unfinished, "", window⟩

end Execution
end StackCode
