import StackCode.Bytecode.Operand

/-!
# Opcodes

The nineteen opcodes of the stack bytecode, each with its byte, name, class and
operand form. Opcodes that share a shape are grouped: the four arithmetic
operations and the eight transfers of control.
-/
namespace StackCode.Bytecode

/-- Operations on the two top doubles. The right operand is on top. -/
inductive Arith where
  | add | sub | mul | dvd
deriving DecidableEq, Repr

/-- Unsigned comparisons of the two top words. The right operand is on top. -/
inductive Comparison where
  | ae | a | be | b | e | ne
deriving DecidableEq, Repr

/-- Transfers of control that carry a target. -/
inductive Branch where
  | jmp
  | cond (c : Comparison)
  | call
deriving DecidableEq, Repr

/-- The opcodes. -/
inductive Opcode where
  | hlt | push | pop
  | arith (op : Arith)
  | sqrt | input | output
  | branch (b : Branch)
  | ret
deriving DecidableEq, Repr

/-- Groups of opcodes that share a lowering. -/
inductive OpClass where
  | halt | ret | stack | arith | sqrt | host | directJump | conditionalJump
deriving DecidableEq, Repr

namespace OpClass

def code : OpClass → Int
  | .halt => 0
  | .ret => 1
  | .stack => 2
  | .arith => 3
  | .sqrt => 4
  | .host => 5
  | .directJump => 6
  | .conditionalJump => 7

/-- All classes, in the order of their numbers. -/
def all : List OpClass :=
  [.halt, .ret, .stack, .arith, .sqrt, .host, .directJump, .conditionalJump]

def name : OpClass → String
  | .halt => "halt"
  | .ret => "return"
  | .stack => "stack"
  | .arith => "arith"
  | .sqrt => "sqrt"
  | .host => "host-io"
  | .directJump => "direct-jump"
  | .conditionalJump => "conditional-jump"

/-- Spells a class number. -/
def describe (c : Int) : String :=
  match all.find? fun k => k.code == c with
  | some k => k.name
  | none => "class(" ++ toString c ++ ")"

end OpClass

namespace Opcode

/-- All opcodes, in the order of their bytes. -/
def all : List Opcode :=
  [.hlt, .push, .pop, .arith .add, .arith .sub, .arith .mul, .arith .dvd, .sqrt, .input,
    .output, .branch .jmp, .branch (.cond .ae), .branch (.cond .a), .branch (.cond .be),
    .branch (.cond .b), .branch (.cond .e), .branch (.cond .ne), .branch .call, .ret]

def toByte : Opcode → UInt8
  | .hlt => 0x00
  | .push => 0x01
  | .pop => 0x02
  | .arith .add => 0x03
  | .arith .sub => 0x04
  | .arith .mul => 0x05
  | .arith .dvd => 0x06
  | .sqrt => 0x07
  | .input => 0x08
  | .output => 0x09
  | .branch .jmp => 0x0a
  | .branch (.cond .ae) => 0x0b
  | .branch (.cond .a) => 0x0c
  | .branch (.cond .be) => 0x0d
  | .branch (.cond .b) => 0x0e
  | .branch (.cond .e) => 0x0f
  | .branch (.cond .ne) => 0x10
  | .branch .call => 0x11
  | .ret => 0x12

/-- The opcode of a byte; most bytes are none. -/
def ofByte? (b : UInt8) : Option Opcode := all[b.toNat]?

def name : Opcode → String
  | .hlt => "hlt"
  | .push => "push"
  | .pop => "pop"
  | .arith .add => "add"
  | .arith .sub => "sub"
  | .arith .mul => "mul"
  | .arith .dvd => "dvd"
  | .sqrt => "sqrt"
  | .input => "in"
  | .output => "out"
  | .branch .jmp => "jmp"
  | .branch (.cond .ae) => "jae"
  | .branch (.cond .a) => "ja"
  | .branch (.cond .be) => "jbe"
  | .branch (.cond .b) => "jb"
  | .branch (.cond .e) => "je"
  | .branch (.cond .ne) => "jne"
  | .branch .call => "call"
  | .ret => "ret"

/-- Spells an opcode byte. -/
def describe (b : UInt8) : String :=
  match ofByte? b with
  | some op => op.name
  | none => "UNKNOWN(0x" ++ Text.hexByteUpper b ++ ")"

def opClass : Opcode → OpClass
  | .hlt => .halt
  | .push | .pop => .stack
  | .arith _ => .arith
  | .sqrt => .sqrt
  | .input | .output => .host
  | .branch (.cond _) => .conditionalJump
  | .branch _ => .directJump
  | .ret => .ret

/-- The operand form that follows the opcode byte. -/
def operand : Opcode → Form
  | .push | .pop => .tagged
  | .branch _ => .target
  | _ => .none

/-- Does the byte stand for an opcode that carries a target? -/
def branch? (b : UInt8) : Option Branch :=
  match ofByte? b with
  | some (.branch j) => some j
  | _ => none

/-- Net change of the operand stack, in words, along a straight line. -/
def stackDelta : Opcode → Int
  | .push | .input => 1
  | .pop | .output | .arith _ => -1
  | .branch (.cond _) => -2
  | _ => 0

/-- Does the opcode accept a form of this number? `push` and `pop` set a lower
bound only: a number beyond the known forms is turned down later, for having no
tag. -/
def accepts (b : UInt8) (form : Int) : Bool :=
  match ofByte? b with
  | some .push => Form.code .empty < form
  | some .pop => Form.code .empty ≤ form && form != Form.code .imm
  | some op => op.operand.code == form
  | none => false

theorem ofByte?_toByte (op : Opcode) : ofByte? op.toByte = some op := by
  cases op with
  | arith a => cases a <;> rfl
  | branch b =>
    cases b with
    | cond c => cases c <;> rfl
    | _ => rfl
  | _ => rfl

end Opcode
end StackCode.Bytecode
