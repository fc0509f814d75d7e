import StackCode.Binary64.Arith
import StackCode.Bytecode.Scan
import StackCode.Memory.Region
import StackCode.Streams
import StackCode.Transition

/-!
# Running bytecode

What instructions mean by themselves. A state has an offset into the program, four
registers, a stack of words, the data and the streams. Arithmetic takes the right operand
from the top of the stack; conditional jumps compare words as unsigned numbers, the one
pushed first on the left. A call pushes a word that stands for the offset behind it, and
a return looks for the offset that the popped word stands for. Which words stand for
offsets is a parameter.
-/
namespace StackCode.Bytecode

structure Registers where
  ax : UInt64
  bx : UInt64
  cx : UInt64
  dx : UInt64
deriving DecidableEq, Repr

namespace Registers

def zero : Registers := ⟨0, 0, 0, 0⟩

def get (rs : Registers) : Register → UInt64
  | .ax => rs.ax
  | .bx => rs.bx
  | .cx => rs.cx
  | .dx => rs.dx

def set (rs : Registers) (v : UInt64) : Register → Registers
  | .ax => { rs with ax := v }
  | .bx => { rs with bx := v }
  | .cx => { rs with cx := v }
  | .dx => { rs with dx := v }

end Registers

/-- The words that stand for offsets on the stack, and the one that ends the program. -/
structure Links where
  address : Nat → UInt64
  home : UInt64

structure State where
  ip : Nat
  regs : Registers
  stack : List UInt64
  data : Memory.Region
  streams : Streams
deriving DecidableEq, Repr

namespace Arith

def apply (a : Arithmetic) : Arith → UInt64 → UInt64 → UInt64
  | .add => a.add
  | .sub => a.sub
  | .mul => a.mul
  | .dvd => a.div

end Arith

namespace Comparison

/-- Whether the comparison of two words holds. -/
def holds : Comparison → UInt64 → UInt64 → Bool
  | .ae, x, y => y ≤ x
  | .a, x, y => y < x
  | .be, x, y => x ≤ y
  | .b, x, y => x < y
  | .e, x, y => x == y
  | .ne, x, y => x != y

end Comparison

/-- The address of a cell. -/
def Cell.address (rs : Registers) : Cell → UInt64
  | .abs d => d.toInt64.toUInt64
  | .ptr r => rs.get r
  | .off r d => rs.get r + d.toInt64.toUInt64

/-- The offset that a popped word stands for. The end of the program counts as one. -/
def Links.find? (links : Links) (code : Bytes) (w : UInt64) : Option Nat :=
  ((Scan.ofCode code).starts ++ [code.length]).find? fun ip => links.address ip == w

namespace State

/-- Goes on at an offset with another stack. -/
def goAt (s : State) (ip : Nat) (stack : List UInt64) : Transition State :=
  .goes { s with ip := ip, stack := stack }

/-- The word that a source gives. -/
def value? (s : State) : Source → Option UInt64
  | .imm bits => some bits
  | .reg r => some (s.regs.get r)
  | .mem c => s.data.load? (c.address s.regs)

/-- Carries out one instruction; `next` is the offset behind it. -/
def execute (a : Arithmetic) (links : Links) (code : Bytes) (s : State) (next : Nat) :
    Instr → Transition State
  | .hlt => .halted s
  | .push src =>
      match s.value? src with
      | some v => s.goAt next (v :: s.stack)
      | none => .stuck
  | .pop dst =>
      match s.stack with
      | [] => .stuck
      | v :: rest =>
          match dst with
          | .discard => s.goAt next rest
          | .reg r => { s with regs := s.regs.set v r }.goAt next rest
          | .mem c =>
              match s.data.index? (c.address s.regs) with
              | some i => { s with data := s.data.put i v }.goAt next rest
              | none => .stuck
  | .arith op =>
      match s.stack with
      | y :: x :: rest => s.goAt next (op.apply a x y :: rest)
      | _ => .stuck
  | .sqrt =>
      match s.stack with
      | x :: rest => s.goAt next (a.sqrt x :: rest)
      | [] => .stuck
  | .input =>
      let (v, streams) := s.streams.read
      { s with streams := streams }.goAt next (v :: s.stack)
  | .output =>
      match s.stack with
      | v :: rest => { s with streams := s.streams.print v }.goAt next rest
      | [] => .stuck
  | .branch .jmp t => s.goAt t.toInt.toNat s.stack
  | .branch (.cond c) t =>
      match s.stack with
      | y :: x :: rest => s.goAt (if c.holds x y then t.toInt.toNat else next) rest
      | _ => .stuck
  | .branch .call t => s.goAt t.toInt.toNat (links.address next :: s.stack)
  | .ret =>
      match s.stack with
      | [] => .stuck
      | w :: rest =>
          if w = links.home then .returned { s with stack := rest }
          else
            match links.find? code w with
            | some ip => s.goAt ip rest
            | none => .stuck

/-- One step. -/
def step (a : Arithmetic) (links : Links) (code : Bytes) (s : State) : Transition State :=
  match Instr.read (code.drop s.ip) with
  | .error _ => .stuck
  | .ok i => s.execute a links code (s.ip + i.len) i

end State
end StackCode.Bytecode
