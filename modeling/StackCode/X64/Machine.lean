import StackCode.Binary64.Arith
import StackCode.Memory.Region
import StackCode.Streams
import StackCode.Transition
import StackCode.X64.Decode

/-!
# Running machine code

A machine with sixteen general registers, the low halves of sixteen vector registers,
five flags and byte-addressed memory. Each step reads the instruction at `rip` from the
image and carries it out. Two addresses stand for routines outside the image: calling
one reads or prints the double at `rdi` and leaves the registers that a call may change
with arbitrary contents. A run ends when it returns to where it was entered from, or by
the system call that ends the process. An instruction that cannot be read, or an access
outside memory, has no next state.
-/
namespace StackCode.X64

/-- The general or vector registers. -/
structure Regs where
  words : Vector UInt64 16
deriving DecidableEq, Repr

namespace Regs

def zero : Regs := ⟨Vector.replicate 16 0⟩

theorem index_lt (r : Reg) : r.toNat % 16 < 16 := Nat.mod_lt _ (by decide)

def get (rs : Regs) (r : Reg) : UInt64 := rs.words.get ⟨r.toNat % 16, index_lt r⟩

def set (rs : Regs) (r : Reg) (v : UInt64) : Regs :=
  ⟨rs.words.set (r.toNat % 16) v (index_lt r)⟩

end Regs

structure Flags where
  carry : Bool
  zero : Bool
  sign : Bool
  overflow : Bool
  parity : Bool
deriving DecidableEq, Repr

namespace Flags

def clear : Flags := ⟨false, false, false, false, false⟩

/-- Whether the low byte has an even number of ones. -/
def evenParity (v : UInt64) : Bool :=
  ((List.range 8).filter fun i => v.toNat.testBit i).length % 2 == 0

def negative (v : UInt64) : Bool := v.toNat.testBit 63

/-- Flags of the difference `a - b`. -/
def ofSub (a b : UInt64) : Flags :=
  let d := a - b
  ⟨a < b, d == 0, negative d,
    negative a != negative b && negative a != negative d, evenParity d⟩

/-- Flags of the sum `a + b`. -/
def ofAdd (a b : UInt64) : Flags :=
  let s := a + b
  ⟨s < a, s == 0, negative s,
    negative a == negative b && negative a != negative s, evenParity s⟩

/-- Flags of a bitwise result. -/
def ofBits (v : UInt64) : Flags := ⟨false, v == 0, negative v, false, evenParity v⟩

/-- Whether a condition code holds. Codes come in pairs of opposites. -/
def holds (f : Flags) (cc : UInt8) : Bool :=
  let base :=
    match cc &&& 0x0e with
    | 0x0 => f.overflow
    | 0x2 => f.carry
    | 0x4 => f.zero
    | 0x6 => f.carry || f.zero
    | 0x8 => f.sign
    | 0xa => f.parity
    | 0xc => f.sign != f.overflow
    | _ => f.zero || f.sign != f.overflow
  if cc &&& 1 = 0 then base else !base

end Flags

structure State where
  rip : UInt64
  regs : Regs
  xmm : Regs
  flags : Flags
  memory : Memory.Space
  streams : Streams
deriving DecidableEq, Repr

/-- What surrounds a running image: where it is, the two outside routines, the address
it returns to, the arithmetic, and what an outside routine leaves in a register that it
may change. -/
structure Host where
  image : Array UInt8
  base : UInt64
  input : UInt64
  output : UInt64
  home : UInt64
  arithmetic : Arithmetic
  scratch : Reg → UInt64

/-- The longest encoding of an instruction. -/
def maxLength : Nat := 15

/-- The number of the system call that ends the process. -/
def exitGroup : UInt64 := 231

def signed32 (d : Int32) : UInt64 := d.toInt64.toUInt64

def signed8 (d : Int8) : UInt64 := d.toInt64.toUInt64

namespace Host

/-- The instruction at an address, and its length. -/
def fetch (h : Host) (rip : UInt64) : Option (Insn × Nat) :=
  let i := (rip - h.base).toNat
  let window := (h.image.extract i (i + maxLength)).toList
  (Insn.read window).map fun (insn, rest) => (insn, window.length - rest.length)

/-- The scalar operation with an opcode byte. -/
def scalar? (h : Host) (op : UInt8) : Option (UInt64 → UInt64 → UInt64) :=
  if op = sseAdd then some h.arithmetic.add
  else if op = sseSub then some h.arithmetic.sub
  else if op = sseMul then some h.arithmetic.mul
  else if op = sseDiv then some h.arithmetic.div
  else none

/-- The registers that an outside routine may change. -/
def callerSaved : List Reg := [0, 1, 2, 6, 7, 8, 9, 10, 11]

/-- The registers after an outside routine has used them. -/
def scratched (h : Host) (rs : Regs) : Regs :=
  callerSaved.foldl (fun rs r => rs.set r (h.scratch r)) rs

end Host

namespace State

def rsp (s : State) : UInt64 := s.regs.get .rsp

/-- Goes on behind the instruction with changed registers. -/
def withRegs (s : State) (next : UInt64) (rs : Regs) : State :=
  { s with rip := next, regs := rs }

/-- Stores a word and goes on at `next` with the given registers. -/
def storing (s : State) (next : UInt64) (rs : Regs) (addr v : UInt64) : Transition State :=
  match s with
  | ⟨_, _, xmm, flags, memory, streams⟩ =>
      match memory.store? addr v with
      | some memory => .goes ⟨next, rs, xmm, flags, memory, streams⟩
      | none => .stuck

/-- Loads a word into a register and goes on at `next`. -/
def loading (s : State) (next : UInt64) (r : Reg) (addr : UInt64) : Transition State :=
  match s.memory.load? addr with
  | some v => .goes (s.withRegs next (s.regs.set r v))
  | none => .stuck

/-- Pushes a word and goes on at `next`. -/
def pushing (s : State) (next v : UInt64) : Transition State :=
  let top := s.rsp - 8
  let rs := s.regs.set .rsp top
  s.storing next rs top v

/-- The input routine: reads a number and stores it where `rdi` points. -/
def readNumber (h : Host) (s : State) (next : UInt64) : Transition State :=
  match s with
  | ⟨_, regs, xmm, flags, memory, streams⟩ =>
      let (v, streams) := streams.read
      match memory.store? (regs.get .rdi) v with
      | some memory => .goes ⟨next, h.scratched regs, xmm, flags, memory, streams⟩
      | none => .stuck

/-- The output routine: prints the number that `rdi` points to. -/
def printNumber (h : Host) (s : State) (next : UInt64) : Transition State :=
  match s with
  | ⟨_, regs, xmm, flags, memory, streams⟩ =>
      match memory.load? (regs.get .rdi) with
      | some v => .goes ⟨next, h.scratched regs, xmm, flags, memory, streams.print v⟩
      | none => .stuck

/-- Calls an address. An outside routine returns at once, so its return address is
pushed and popped again. -/
def calling (h : Host) (s : State) (next target : UInt64) : Transition State :=
  if target = h.input ∨ target = h.output then
    match s with
    | ⟨rip, regs, xmm, flags, memory, streams⟩ =>
        match memory.store? (regs.get .rsp - 8) next with
        | some memory =>
            let s : State := ⟨rip, regs, xmm, flags, memory, streams⟩
            if target = h.input then s.readNumber h next else s.printNumber h next
        | none => .stuck
  else s.pushing target next

/-- Carries out one instruction; `next` is the address behind it. -/
def execute (h : Host) (s : State) (next : UInt64) : Insn → Transition State
  | .movImm64 r imm => .goes (s.withRegs next (s.regs.set r imm))
  | .movImm32 r imm => .goes (s.withRegs next (s.regs.set r imm.toUInt32.toUInt64))
  | .loadAbs r disp => s.loading next r (signed32 disp)
  | .storeAbs disp r => let rs := s.regs; s.storing next rs (signed32 disp) (rs.get r)
  | .load r base => s.loading next r (s.regs.get base)
  | .store base r => let rs := s.regs; s.storing next rs (rs.get base) (rs.get r)
  | .loadDisp r base disp => s.loading next r (s.regs.get base + signed32 disp)
  | .storeDisp base disp r =>
      let rs := s.regs
      s.storing next rs (rs.get base + signed32 disp) (rs.get r)
  | .leaRsp r disp => .goes (s.withRegs next (s.regs.set r (s.rsp + signed8 disp)))
  | .addImm r imm =>
      let a := s.regs.get r
      let b := signed8 imm
      .goes { s with rip := next, regs := s.regs.set r (a + b), flags := .ofAdd a b }
  | .subImm r imm =>
      let a := s.regs.get r
      let b := signed8 imm
      .goes { s with rip := next, regs := s.regs.set r (a - b), flags := .ofSub a b }
  | .xor dst src =>
      let v := s.regs.get dst ^^^ s.regs.get src
      .goes { s with rip := next, regs := s.regs.set dst v, flags := .ofBits v }
  | .cmp left right =>
      .goes { s with rip := next, flags := .ofSub (s.regs.get left) (s.regs.get right) }
  | .jcc cc rel =>
      .goes { s with rip := if s.flags.holds cc then next + signed32 rel else next }
  | .jmp rel => .goes { s with rip := next + signed32 rel }
  | .call rel => s.calling h next (next + signed32 rel)
  | .callReg r => let target := s.regs.get r; s.calling h next target
  | .ret =>
      match s.memory.load? s.rsp with
      | some v => .goes (s.withRegs v (s.regs.set .rsp (s.rsp + 8)))
      | none => .stuck
  | .push r => let v := s.regs.get r; s.pushing next v
  | .pop r =>
      match s.memory.load? s.rsp with
      | some v => .goes (s.withRegs next ((s.regs.set .rsp (s.rsp + 8)).set r v))
      | none => .stuck
  | .syscall => if s.regs.get .rax = exitGroup then .halted s else .stuck
  | .movsdLoad x disp =>
      match s.memory.load? (s.rsp + signed8 disp) with
      | some v => .goes { s with rip := next, xmm := s.xmm.set x v }
      | none => .stuck
  | .movsdStore disp x =>
      let rs := s.regs
      let v := s.xmm.get x
      s.storing next rs (rs.get .rsp + signed8 disp) v
  | .sqrtsd x disp =>
      match s.memory.load? (s.rsp + signed8 disp) with
      | some v => .goes { s with rip := next, xmm := s.xmm.set x (h.arithmetic.sqrt v) }
      | none => .stuck
  | .arithsd op dst src =>
      match h.scalar? op with
      | some f =>
          let v := f (s.xmm.get dst) (s.xmm.get src)
          .goes { s with rip := next, xmm := s.xmm.set dst v }
      | none => .stuck

/-- One step. -/
def step (h : Host) (s : State) : Transition State :=
  if s.rip = h.home then .returned s
  else
    match h.fetch s.rip with
    | none => .stuck
    | some (insn, length) =>
        let next := s.rip + UInt64.ofNat length
        s.execute h next insn

end State

end StackCode.X64
