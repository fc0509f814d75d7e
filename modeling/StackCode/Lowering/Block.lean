import StackCode.Bytecode.Opcode
import StackCode.Lowering.Template

/-!
# The code of each instruction

The bytecode registers live in four machine registers and the operand stack is the
machine stack. Memory operands and literals pass through `rdi`. Arithmetic combines
the two top words as doubles, the top one on the right. Helper calls save the four
registers, hand over the address of a stack slot, and may carry one extra word so that
the stack is aligned at the call.
-/
namespace StackCode.Lowering

open Bytecode X64

/-- The routines outside the lowered code. -/
inductive Helper where
  | input
  | output
deriving DecidableEq, Repr

namespace Helper

/-- The helper of a number; every number but one is the input helper. -/
def ofCode (c : Int) : Helper := if c = 1 then .output else .input

def code : Helper → Int
  | .input => 0
  | .output => 1

def name : Helper → String
  | .input => "in"
  | .output => "out"

end Helper

/-- Where the helpers are. -/
structure Helpers where
  input : UInt64
  output : UInt64
deriving DecidableEq, Repr

namespace Helpers

def addr (h : Helpers) : Helper → UInt64
  | .input => h.input
  | .output => h.output

end Helpers

namespace Block

/-- The machine register that holds a bytecode register. -/
def home : Register → Reg
  | .ax => .rax
  | .bx => .rbx
  | .cx => .rcx
  | .dx => .rdx

/-- Registers saved around helper calls, in the order they are pushed. -/
def saved : List Reg := [.rax, .rbx, .rcx, .rdx]

/-- The number of the system call that ends the process. -/
def exitGroup : Int32 := 231

def fixed (is : List Insn) : Block := is.map Item.fixed

def halt : Block := fixed [.movImm32 .rax exitGroup, .xor .rdi .rdi, .syscall]

def ret : Block := fixed [.ret]

def scalarOp : Arith → UInt8
  | .add => sseAdd
  | .sub => sseSub
  | .mul => sseMul
  | .dvd => sseDiv

def arith (op : Arith) : Block :=
  fixed [.movsdLoad 1 8, .movsdLoad 2 0, .addImm .rsp 8, .arithsd (scalarOp op) 1 2,
    .movsdStore 0 1]

def sqrt : Block := fixed [.sqrtsd 1 0, .movsdStore 0 1]

/-- Makes room for a number that is read, calls the helper on the slot, and drops a
number that was printed. -/
def host (h : Helper) (padded : Bool) : Block :=
  fixed (if h = .input then [.subImm .rsp 8] else []) ++
    fixed (saved.map .push) ++
    fixed [.leaRsp .rdi 32] ++
    fixed (if padded then [.push .rdi] else []) ++
    [⟨.movImm64 .r11 0, some .helper⟩] ++
    fixed [.callReg .r11] ++
    fixed (if padded then [.pop .rdi] else []) ++
    fixed (saved.reverse.map .pop) ++
    fixed (if h = .output then [.addImm .rsp 8] else [])

/-- Condition codes of the unsigned comparisons. -/
def condition : Comparison → UInt8
  | .b => 0x2
  | .ae => 0x3
  | .e => 0x4
  | .ne => 0x5
  | .be => 0x6
  | .a => 0x7

/-- Conditional jumps pop the right operand, then the left one, and compare them as
unsigned words. -/
def branch : Branch → Block
  | .jmp => [⟨.jmp 0, some .rel32⟩]
  | .call => [⟨.call 0, some .rel32⟩]
  | .cond c =>
      fixed [.pop .rsi, .pop .rdi, .cmp .rdi .rsi] ++ [⟨.jcc (condition c) 0, some .rel32⟩]

/-- The code of a push, by form and register. -/
def push : Form → Option Register → Option Block
  | .imm, none => some (⟨.movImm64 .rdi 0, some .imm64⟩ :: fixed [.push .rdi])
  | .memImm, none => some (⟨.loadAbs .rdi 0, some .disp32⟩ :: fixed [.push .rdi])
  | .reg, some r => some (fixed [.push (home r)])
  | .memReg, some r => some (fixed [.load .rdi (home r), .push .rdi])
  | .memRegImm, some r =>
      some (⟨.loadDisp .rdi (home r) 0, some .disp32⟩ :: fixed [.push .rdi])
  | _, _ => none

/-- The code of a pop, by form and register. -/
def pop : Form → Option Register → Option Block
  | .empty, none => some (fixed [.pop .rdi])
  | .memImm, none => some (fixed [.pop .rdi] ++ [⟨.storeAbs 0 .rdi, some .disp32⟩])
  | .reg, some r => some (fixed [.pop (home r)])
  | .memReg, some r => some (fixed [.pop .rdi, .store (home r) .rdi])
  | .memRegImm, some r =>
      some (fixed [.pop .rdi] ++ [⟨.storeDisp (home r) 0 .rdi, some .disp32⟩])
  | _, _ => none

end Block
end StackCode.Lowering
