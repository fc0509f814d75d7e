import StackCode.Bytes

/-!
# Machine instructions and their encodings

The x86-64 instructions that lowered code consists of. General registers, vector
registers and condition codes are held as bytes; an encoding uses the low bits of
each, and a register number of eight or more asks for an extension bit.

An encoding is a sequence of chunks. Plain chunks are opcode and operand bytes; a
field chunk is an immediate, displacement or branch distance that is written as a
whole. `encode` joins the chunks.
-/
namespace StackCode.X64

/-- A register number, as its encoding bits. -/
abbrev Reg := UInt8

namespace Reg

def rax : Reg := 0
def rcx : Reg := 1
def rdx : Reg := 2
def rbx : Reg := 3
def rsp : Reg := 4
def rsi : Reg := 6
def rdi : Reg := 7
def r11 : Reg := 11

end Reg

inductive Insn where
  /-- a 64-bit immediate to a register -/
  | movImm64 (reg : Reg) (imm : UInt64)
  /-- a 32-bit immediate to a register, upper half cleared -/
  | movImm32 (reg : Reg) (imm : Int32)
  /-- load from an absolute address -/
  | loadAbs (reg : Reg) (disp : Int32)
  | storeAbs (disp : Int32) (reg : Reg)
  /-- load from where a register points -/
  | load (reg base : Reg)
  | store (base reg : Reg)
  /-- load from a distance from where a register points -/
  | loadDisp (reg base : Reg) (disp : Int32)
  | storeDisp (base : Reg) (disp : Int32) (reg : Reg)
  /-- address of a stack slot -/
  | leaRsp (reg : Reg) (disp : Int8)
  | addImm (reg : Reg) (imm : Int8)
  | subImm (reg : Reg) (imm : Int8)
  | xor (dst src : Reg)
  | cmp (left right : Reg)
  | jcc (cc : UInt8) (rel : Int32)
  | jmp (rel : Int32)
  | call (rel : Int32)
  | callReg (reg : Reg)
  | ret
  | push (reg : Reg)
  | pop (reg : Reg)
  | syscall
  /-- double from a stack slot to a vector register -/
  | movsdLoad (x : Reg) (disp : Int8)
  | movsdStore (disp : Int8) (x : Reg)
  | sqrtsd (x : Reg) (disp : Int8)
  /-- scalar operation on doubles, named by its opcode byte -/
  | arithsd (op : UInt8) (dst src : Reg)
deriving DecidableEq, Repr

/-- The byte in front of an instruction that widens operands and register numbers. -/
def rex (w r x b : Bool) : UInt8 :=
  0x40 ||| (if w then 8 else 0) ||| (if r then 4 else 0) ||| (if x then 2 else 0) |||
    (if b then 1 else 0)

/-- Prefix byte of a 64-bit operation on `reg` and `rm`. -/
def rexW (reg rm : Reg) : UInt8 := rex true (8 ≤ reg) false (8 ≤ rm)

/-- The operand byte; `mode` comes already shifted. -/
def modRM (mode : UInt8) (reg rm : Reg) : UInt8 :=
  mode ||| ((reg &&& 7) <<< 3) ||| (rm &&& 7)

/-- Operand modes: no displacement, one byte, four bytes, register. -/
def modeNone : UInt8 := 0x00
def modeDisp8 : UInt8 := 0x40
def modeDisp32 : UInt8 := 0x80
def modeReg : UInt8 := 0xc0

/-- The index byte of a stack slot. -/
def sibStack : UInt8 := 0x24

/-- The index byte of an absolute address. -/
def sibAbsolute : UInt8 := 0x25

/-- Opcode bytes of the scalar operations. -/
def sseAdd : UInt8 := 0x58
def sseMul : UInt8 := 0x59
def sseSub : UInt8 := 0x5c
def sseDiv : UInt8 := 0x5e

/-- A piece of an encoding. -/
inductive Chunk where
  | plain (bytes : Bytes)
  | field (bytes : Bytes)
deriving DecidableEq, Repr

namespace Chunk

def bytes : Chunk → Bytes
  | .plain bs | .field bs => bs

def isField : Chunk → Bool
  | .plain _ => false
  | .field _ => true

def word32 (v : Int32) : Chunk := .field (Bytes.ofWord32 v.toUInt32)

def word64 (v : UInt64) : Chunk := .field (Bytes.ofWord64 v)

/-- The extension byte that registers of eight and more need where 64-bit operands are
the rule. -/
def extension (reg : Reg) : List Chunk :=
  if 8 ≤ reg then [.plain [rex false false false true]] else []

/-- The stack slot operand of a scalar operation. A displacement of zero is left
out. -/
def stackSlot (x : Reg) (disp : Int8) : Chunk :=
  if disp = 0 then .plain [modRM modeNone x .rsp, sibStack]
  else .plain [modRM modeDisp8 x .rsp, sibStack, disp.toUInt8]

end Chunk

namespace Insn

def chunks : Insn → List Chunk
  | .movImm64 reg imm =>
      [.plain [rex true false false (8 ≤ reg), 0xb8 ||| (reg &&& 7)], .word64 imm]
  | .movImm32 reg imm =>
      Chunk.extension reg ++ [.plain [0xb8 ||| (reg &&& 7)], .word32 imm]
  | .loadAbs reg disp =>
      [.plain [rexW reg 0, 0x8b, modRM modeNone reg .rsp, sibAbsolute], .word32 disp]
  | .storeAbs disp reg =>
      [.plain [rexW reg 0, 0x89, modRM modeNone reg .rsp, sibAbsolute], .word32 disp]
  | .load reg base => [.plain [rexW reg base, 0x8b, modRM modeNone reg base]]
  | .store base reg => [.plain [rexW reg base, 0x89, modRM modeNone reg base]]
  | .loadDisp reg base disp =>
      [.plain [rexW reg base, 0x8b, modRM modeDisp32 reg base], .word32 disp]
  | .storeDisp base disp reg =>
      [.plain [rexW reg base, 0x89, modRM modeDisp32 reg base], .word32 disp]
  | .leaRsp reg disp =>
      [.plain [rexW reg .rsp, 0x8d, modRM modeDisp8 reg .rsp, sibStack, disp.toUInt8]]
  | .addImm reg imm => [.plain [rexW 0 reg, 0x83, modRM modeReg 0 reg, imm.toUInt8]]
  | .subImm reg imm => [.plain [rexW 0 reg, 0x83, modRM modeReg 5 reg, imm.toUInt8]]
  | .xor dst src => [.plain [rexW src dst, 0x31, modRM modeReg src dst]]
  | .cmp left right => [.plain [rexW right left, 0x39, modRM modeReg right left]]
  | .jcc cc rel => [.plain [0x0f, 0x80 ||| cc], .word32 rel]
  | .jmp rel => [.plain [0xe9], .word32 rel]
  | .call rel => [.plain [0xe8], .word32 rel]
  | .callReg reg => Chunk.extension reg ++ [.plain [0xff, modRM modeReg 2 reg]]
  | .ret => [.plain [0xc3]]
  | .push reg => Chunk.extension reg ++ [.plain [0x50 ||| (reg &&& 7)]]
  | .pop reg => Chunk.extension reg ++ [.plain [0x58 ||| (reg &&& 7)]]
  | .syscall => [.plain [0x0f, 0x05]]
  | .movsdLoad x disp => [.plain [0xf2, 0x0f, 0x10], Chunk.stackSlot x disp]
  | .movsdStore disp x => [.plain [0xf2, 0x0f, 0x11], Chunk.stackSlot x disp]
  | .sqrtsd x disp => [.plain [0xf2, 0x0f, 0x51], Chunk.stackSlot x disp]
  | .arithsd op dst src => [.plain [0xf2, 0x0f, op, modRM modeReg dst src]]

def encode (i : Insn) : Bytes := i.chunks.flatMap Chunk.bytes

/-- The encoding of a sequence. -/
def encodeAll (is : List Insn) : Bytes := is.flatMap encode

/-- Where the field stands in the encoding, if there is one. -/
def fieldAt? (i : Insn) : Option Nat :=
  if i.chunks.any Chunk.isField then
    some ((i.chunks.takeWhile fun c => !c.isField).flatMap Chunk.bytes).length
  else none

end Insn
end StackCode.X64
