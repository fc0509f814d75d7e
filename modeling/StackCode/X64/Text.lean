import StackCode.Text.Number
import StackCode.X64.Decode

/-!
# Spelling machine instructions

Instructions are spelled with the destination first. Addresses and displacements of
four bytes are shown as unsigned numbers and left out when zero; small immediates are
signed. A branch names its target offset, except at offset zero, where it shows the
distance.
-/
namespace StackCode.X64

namespace Reg

def names64 : List String :=
  ["rax", "rcx", "rdx", "rbx", "rsp", "rbp", "rsi", "rdi", "r8", "r9", "r10", "r11", "r12",
    "r13", "r14", "r15"]

def names32 : List String :=
  ["eax", "ecx", "edx", "ebx", "esp", "ebp", "esi", "edi", "r8d", "r9d", "r10d", "r11d",
    "r12d", "r13d", "r14d", "r15d"]

def name64 (r : Reg) : String := names64.getD r.toNat "?"

def name32 (r : Reg) : String := names32.getD r.toNat "?"

def nameXmm (r : Reg) : String := "xmm" ++ toString r.toNat

end Reg

namespace Insn

/-- The names of the conditions, by code. -/
def conditions : List String :=
  ["jo", "jno", "jb", "jnb", "jz", "jnz", "jbe", "jnbe", "js", "jns", "jp", "jnp", "jl",
    "jnl", "jle", "jnle"]

/-- A 64-bit immediate: signed if it fits 32 bits, unsigned otherwise. -/
def imm64Text (v : UInt64) : String :=
  let s := v.toInt64.toInt
  if -0x80000000 ≤ s ∧ s < 0x80000000 then Text.markedHex s else Text.markedHex v.toNat

/-- A signed distance, the sign always shown. -/
def signedText (n : Int) : String :=
  (if n < 0 then "-" else "+") ++ "0x" ++ Text.hex 0 n.natAbs

/-- The address `base + disp`, either part left out when it is missing or zero. -/
def addressText (base : String) (disp : Int32) : String :=
  let d := disp.toUInt32.toNat
  let shown := if d = 0 then "" else (if base = "" then "" else "+") ++ "0x" ++ Text.hex 0 d
  "[" ++ base ++ shown ++ "]"

/-- A stack slot. -/
def slotText (disp : Int8) : String :=
  "[rsp" ++ (if disp.toInt = 0 then "" else signedText disp.toInt) ++ "]"

/-- The target of a branch of `size` bytes at offset `pc`. -/
def targetText (pc size : Nat) (rel : Int32) : String :=
  if pc = 0 then "." ++ signedText rel.toInt
  else Text.markedHex ((((pc + size : Nat) : Int) + rel.toInt) % 0x10000000000000000)

def scalarName (op : UInt8) : String :=
  if op = sseAdd then "addsd"
  else if op = sseMul then "mulsd"
  else if op = sseSub then "subsd"
  else "divsd"

/-- The text of an instruction of `size` bytes at offset `pc`. -/
def text (pc size : Nat) : Insn → String
  | .movImm64 r imm => "mov " ++ r.name64 ++ ", " ++ imm64Text imm
  | .movImm32 r imm => "mov " ++ r.name32 ++ ", " ++ Text.markedHex imm.toInt
  | .loadAbs r d => "mov " ++ r.name64 ++ ", qword ptr " ++ addressText "" d
  | .storeAbs d r => "mov qword ptr " ++ addressText "" d ++ ", " ++ r.name64
  | .load r b => "mov " ++ r.name64 ++ ", qword ptr " ++ addressText b.name64 0
  | .store b r => "mov qword ptr " ++ addressText b.name64 0 ++ ", " ++ r.name64
  | .loadDisp r b d => "mov " ++ r.name64 ++ ", qword ptr " ++ addressText b.name64 d
  | .storeDisp b d r => "mov qword ptr " ++ addressText b.name64 d ++ ", " ++ r.name64
  | .leaRsp r d => "lea " ++ r.name64 ++ ", ptr " ++ slotText d
  | .addImm r imm => "add " ++ r.name64 ++ ", " ++ Text.markedHex imm.toInt
  | .subImm r imm => "sub " ++ r.name64 ++ ", " ++ Text.markedHex imm.toInt
  | .xor a b => "xor " ++ a.name64 ++ ", " ++ b.name64
  | .cmp a b => "cmp " ++ a.name64 ++ ", " ++ b.name64
  | .jcc cc rel => conditions.getD cc.toNat "?" ++ " " ++ targetText pc size rel
  | .jmp rel => "jmp " ++ targetText pc size rel
  | .call rel => "call " ++ targetText pc size rel
  | .callReg r => "call " ++ r.name64
  | .ret => "ret"
  | .push r => "push " ++ r.name64
  | .pop r => "pop " ++ r.name64
  | .syscall => "syscall"
  | .movsdLoad x d => "movsd " ++ x.nameXmm ++ ", qword ptr " ++ slotText d
  | .movsdStore d x => "movsd qword ptr " ++ slotText d ++ ", " ++ x.nameXmm
  | .sqrtsd x d => "sqrtsd " ++ x.nameXmm ++ ", qword ptr " ++ slotText d
  | .arithsd op a b => scalarName op ++ " " ++ a.nameXmm ++ ", " ++ b.nameXmm

end Insn
end StackCode.X64
